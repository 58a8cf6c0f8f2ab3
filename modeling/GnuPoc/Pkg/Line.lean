import GnuPoc.Sis.Field

/-!
# GnuPoc.Pkg.Line — what makesis 4 keeps of a package file (`parsepkg.h`, `instform.h`, `crtsis.cpp`)

The linked lists of `CSISWriter` grow at their base, so a Lean list holds their nodes with the last one
added first.  `TInstFileOption` is a union of 32-bit members, hence one word.  The fixed size of the
string buffers and the sizes `DoesExist` stores, which the generator does not read, are left out.
-/

namespace GnuPoc.Pkg

/-- A string of `WCHAR`s without its terminator. -/
abbrev WStr := List UInt32

/-- `TInstFileType`, as far as the parser produces it. -/
inductive TInstFileType
  | EInstFileTypeSimple | EInstFileTypeText | EInstFileTypeComponent | EInstFileTypeRun
  | EInstFileTypeNull | EInstFileTypeMime
  deriving DecidableEq, Repr

def EInstFileTextOptionContinue : UInt32 := 0
def EInstFileTextOptionSkipOneIfNo : UInt32 := 1024
def EInstFileTextOptionAbortIfNo : UInt32 := 2048
def EInstFileTextOptionExitIfNo : UInt32 := 4096

def EInstFileRunOptionInstall : UInt32 := 2
def EInstFileRunOptionUninstall : UInt32 := 4
def EInstFileRunOptionByMimeType : UInt32 := 8
def EInstFileRunOptionWaitEnd : UInt32 := 16
def EInstFileRunOptionSendEnd : UInt32 := 32

/-- `THeaderFlags`. -/
def EInstFlagShutdownApps : UInt16 := 1
def EInstFlagIsUnicode : UInt16 := 2
def EInstFlagNoCompress : UInt16 := 4

/-- `TSISType`, as far as a package file can name it. -/
def EInstApplication : UInt32 := 0
def EInstAugmentation : UInt32 := 1
def EInstPartialUpgrade : UInt32 := 2

/-- `TVariableToken`. -/
def EVarLanguage : UInt32 := 0x1000
def EVarRemoteInstall : UInt32 := 0x1001

structure PKGLINEFILE where
  type : TInstFileType
  options : UInt32
  pszSource : WStr
  pszDest : WStr
  pszMimeType : WStr
  deriving DecidableEq, Repr

/-- The `exprType`s with two operands. -/
inductive BinaryOp
  | EInstCondBinOpEq | EInstCondBinOpNe | EInstCondBinOpGt | EInstCondBinOpLt | EInstCondBinOpGe
  | EInstCondBinOpLe | EInstCondLogOpAnd | EInstCondLogOpOr | EInstCondFuncAppProperties
  deriving DecidableEq, Repr

/-- The `exprType`s with one operand. -/
inductive UnaryOp
  | EInstCondUnaryOpNot | EInstCondFuncExists | EInstCondFuncDevProperties
  deriving DecidableEq, Repr

/-- The `exprType`s that hold a number in `pPrim`. -/
inductive NumberPrim
  | EInstCondPrimTypeOption | EInstCondPrimTypeVariable | EInstCondPrimTypeNumber
  deriving DecidableEq, Repr

inductive PKGLINECONDITION
  | binary (op : BinaryOp) (pLhs pRhs : PKGLINECONDITION)
  | unary (op : UnaryOp) (pExpr : PKGLINECONDITION)
  | string (pszString : WStr)
  | number (prim : NumberPrim) (dwNumber : UInt32)
  deriving DecidableEq, Repr

/-- `pPrim->pszString`; a number has no string there. -/
def PKGLINECONDITION.pszString : PKGLINECONDITION → WStr
  | string s => s
  | _ => []

/-- The values of `TInstCondExprType`. -/
def BinaryOp.exprType : BinaryOp → UInt32
  | EInstCondBinOpEq => 1
  | EInstCondBinOpNe => 2
  | EInstCondBinOpGt => 3
  | EInstCondBinOpLt => 4
  | EInstCondBinOpGe => 5
  | EInstCondBinOpLe => 6
  | EInstCondLogOpAnd => 7
  | EInstCondLogOpOr => 8
  | EInstCondFuncAppProperties => 11

def UnaryOp.exprType : UnaryOp → UInt32
  | EInstCondUnaryOpNot => 9
  | EInstCondFuncExists => 10
  | EInstCondFuncDevProperties => 12

def NumberPrim.exprType : NumberPrim → UInt32
  | EInstCondPrimTypeOption => 14
  | EInstCondPrimTypeVariable => 15
  | EInstCondPrimTypeNumber => 16

structure PKGLINEOPTIONS where
  dwNumOptions : ℕ
  /-- last string first -/
  pLangStringBase : List WStr
  deriving DecidableEq, Repr

/-- A `PKGLINENODE`, by `iPackageLineType`. -/
inductive PKGLINENODE
  | file (f : PKGLINEFILE)
  | languageFile (f : PKGLINEFILE)
  | option (o : PKGLINEOPTIONS)
  | condIf (cond : PKGLINECONDITION)
  | condElseIf (cond : PKGLINECONDITION)
  | condElse
  | condEndIf
  deriving DecidableEq, Repr

structure DEPENDNODE where
  dwUID : UInt32
  fromMajor : UInt32
  fromMinor : UInt32
  fromBuild : UInt32
  /-- `toMajor`, `toMinor` and `toBuild`, when `hasTo` -/
  toVersion : Option (UInt32 × UInt32 × UInt32)
  pLangStringBase : List WStr
  deriving DecidableEq, Repr

structure CAPABILITYNODE where
  iKey : UInt32
  iValue : UInt32
  deriving DecidableEq, Repr

structure LOGO where
  pszSource : WStr
  pszDest : WStr
  pszMimeType : WStr
  deriving DecidableEq, Repr

structure Timestamp where
  dwYear : UInt32
  dwMonth : UInt32
  dwDay : UInt32
  dwHours : UInt32
  dwMinutes : UInt32
  dwSeconds : UInt32
  deriving DecidableEq, Repr

structure CSISWriter where
  m_dwUID : UInt32
  m_wMajor : UInt16
  m_wMinor : UInt16
  m_dwBuild : UInt32
  m_wType : UInt32
  m_wFlags : UInt16
  m_wNumLangs : UInt16
  m_pLangStringBase : List WStr
  m_pLocalizedVendorBase : List WStr
  m_pVendorName : List WStr
  m_pLogoBase : List LOGO
  m_pLangBase : List UInt16
  m_pPkgLineBase : List PKGLINENODE
  m_pDependBase : List DEPENDNODE
  m_pPlatformDependBase : List DEPENDNODE
  m_pCapabilityBase : List CAPABILITYNODE
  timestamp : Option Timestamp
  m_bSelfsign : Bool
  deriving DecidableEq, Repr

namespace CSISWriter

/-- The constructor's state. -/
def empty : CSISWriter :=
  ⟨0, 0, 0, 0, 0, 0, 0, [], [], [], [], [], [], [], [], [], none, false⟩

def AddLanguageNode (w : CSISWriter) (wLang : UInt16) : CSISWriter :=
  { w with m_pLangBase := wLang :: w.m_pLangBase, m_wNumLangs := w.m_wNumLangs + 1 }

def AddPkgLineNode (w : CSISWriter) (pNode : PKGLINENODE) : CSISWriter :=
  { w with m_pPkgLineBase := pNode :: w.m_pPkgLineBase }

def AddVendorNode (w : CSISWriter) (pszString : WStr) : CSISWriter :=
  { w with m_pVendorName := pszString :: w.m_pVendorName }

def AddLogo (w : CSISWriter) (pLogo : LOGO) : CSISWriter :=
  { w with m_pLogoBase := pLogo :: w.m_pLogoBase }

def AddDependencyNode (w : CSISWriter) (pNode : DEPENDNODE) : CSISWriter :=
  { w with m_pDependBase := pNode :: w.m_pDependBase }

def AddPlatformDependencyNode (w : CSISWriter) (pNode : DEPENDNODE) : CSISWriter :=
  { w with m_pPlatformDependBase := pNode :: w.m_pPlatformDependBase }

def AddCapabilityNode (w : CSISWriter) (pNode : CAPABILITYNODE) : CSISWriter :=
  { w with m_pCapabilityBase := pNode :: w.m_pCapabilityBase }

def SetVersionInfo (w : CSISWriter) (dwUID : UInt32) (wMajor wMinor : UInt16) (dwBuild wType : UInt32)
    (wFlags : UInt16) : CSISWriter :=
  { w with
    m_dwUID := dwUID
    m_wMajor := wMajor
    m_wMinor := wMinor
    m_dwBuild := dwBuild
    m_wType := wType
    m_wFlags := wFlags }

def AreLangStringInit (w : CSISWriter) : Bool := !w.m_pLangStringBase.isEmpty

def AreLocalizedVendorNamesInit (w : CSISWriter) : Bool := !w.m_pLocalizedVendorBase.isEmpty

def IsVendorNameInit (w : CSISWriter) : Bool := !w.m_pVendorName.isEmpty

end CSISWriter

/-- The body of the loop of `SetLangDependFileDestinations` on one node.  The parser never has another
kind of node in reach. -/
def PKGLINENODE.setFileDestination (pszDest pszMimeType : WStr) (dwType : TInstFileType)
    (dwOptions : UInt32) : PKGLINENODE → PKGLINENODE
  | file f | languageFile f =>
    let f := { f with pszDest := pszDest, type := dwType }
    match dwType with
    | .EInstFileTypeText | .EInstFileTypeRun => languageFile { f with options := dwOptions }
    | .EInstFileTypeMime => languageFile { f with options := dwOptions, pszMimeType := pszMimeType }
    | _ => languageFile f
  | node => node

/-- The body of the loop of `SetLangDependCompDestinations`. -/
def PKGLINENODE.setCompDestination (dwUID : UInt32) : PKGLINENODE → PKGLINENODE
  | file f | languageFile f =>
    languageFile { f with type := .EInstFileTypeComponent, options := dwUID }
  | node => node

namespace CSISWriter

/-- `SetLangDependFileDestinations`: the last `m_wNumLangs` nodes. -/
def SetLangDependFileDestinations (w : CSISWriter) (pszDest pszMimeType : WStr)
    (dwType : TInstFileType) (dwOptions : UInt32) : CSISWriter :=
  let last := w.m_pPkgLineBase.take w.m_wNumLangs.toNat
  let patched := last.map (PKGLINENODE.setFileDestination pszDest pszMimeType dwType dwOptions)
  { w with m_pPkgLineBase := patched ++ w.m_pPkgLineBase.drop w.m_wNumLangs.toNat }

/-- `SetLangDependCompDestinations`. -/
def SetLangDependCompDestinations (w : CSISWriter) (dwUID : UInt32) : CSISWriter :=
  let last := w.m_pPkgLineBase.take w.m_wNumLangs.toNat
  let patched := last.map (PKGLINENODE.setCompDestination dwUID)
  { w with m_pPkgLineBase := patched ++ w.m_pPkgLineBase.drop w.m_wNumLangs.toNat }

end CSISWriter

/-!
### The nesting of a package file

The branches of `IF … ELSEIF … ELSE … ENDIF` as a tree over lines `L` and conditions `C`, and the flat
list of nodes it is stored as.
-/

mutual
/-- The lines and `IF` blocks between two markers. -/
inductive Block (L C : Type)
  | nil
  | cons (item : Item L C) (rest : Block L C)
inductive Item (L C : Type)
  | line (l : L)
  | ifBlock (cond : C) (body : Block L C) (tail : Tail L C)
/-- What follows the body of an `IF` or of an `ELSEIF`. -/
inductive Tail (L C : Type)
  | endIf
  | elseIf (cond : C) (body : Block L C) (tail : Tail L C)
  | els (body : Block L C)
end

/-- A line the generator sees: a file, the files of one language-dependent line, an option list. -/
inductive Line
  | file (f : PKGLINEFILE)
  | languageFiles (fs : List PKGLINEFILE)
  | option (o : PKGLINEOPTIONS)

/-- The nodes of a line. -/
def Line.nodes : Line → List PKGLINENODE
  | file f => [.file f]
  | languageFiles fs => fs.map .languageFile
  | option o => [.option o]

mutual
/-- The nodes of a block, in source order. -/
def Block.nodes : Block Line PKGLINECONDITION → List PKGLINENODE
  | .nil => []
  | .cons item rest => item.nodes ++ rest.nodes
def Item.nodes : Item Line PKGLINECONDITION → List PKGLINENODE
  | .line l => l.nodes
  | .ifBlock cond body tail => .condIf cond :: (body.nodes ++ tail.nodes)
def Tail.nodes : Tail Line PKGLINECONDITION → List PKGLINENODE
  | .endIf => [.condEndIf]
  | .elseIf cond body tail => .condElseIf cond :: (body.nodes ++ tail.nodes)
  | .els body => .condElse :: (body.nodes ++ [.condEndIf])
end

mutual
/-- Every line satisfies `P`. -/
def Block.All {L C : Type} (P : L → Prop) : Block L C → Prop
  | .nil => True
  | .cons item rest => item.All P ∧ rest.All P
def Item.All {L C : Type} (P : L → Prop) : Item L C → Prop
  | .line l => P l
  | .ifBlock _ body tail => body.All P ∧ tail.All P
def Tail.All {L C : Type} (P : L → Prop) : Tail L C → Prop
  | .endIf => True
  | .elseIf _ body tail => body.All P ∧ tail.All P
  | .els body => body.All P
end

/-- A line for `n` languages: a language-dependent line has one file for each. -/
def Line.ForLanguages (n : ℕ) : Line → Prop
  | languageFiles fs => fs.length = n
  | _ => True

end GnuPoc.Pkg
