import GnuPoc.Crc
import GnuPoc.Lib.Arena
import GnuPoc.Pkg.Line
import GnuPoc.Sis.Signing

/-!
# GnuPoc.Sis.Generate — `CSISFileGenerator` (`sisfilegen.cpp`)

The generator walks the package lines in source order.  The arrays of install blocks are filled while
they already hang in the tree, so they live in arenas and the nodes of the tree hold their names;
`installBlock` follows the names when the walk is over.  The C++ stacks are lists, top first.

The file system, zlib, SHA-1, the capability words found in executables, the clock and the built-in
key are an environment.
-/

namespace GnuPoc.Sis

open GnuPoc.Lib GnuPoc.Pkg

structure Env where
  readFile : WStr → Option Bytes
  zlib : Zlib
  sha1 : Bytes → Bytes
  /-- `GetCapabilities` on a file's contents: the four bytes it adds, if any -/
  capabilities : Bytes → Option Bytes
  length_capabilities : ∀ {b c}, capabilities b = some c → c.length = 4
  selfsigned : Signer
  /-- `gmtime` at the run -/
  date : UInt16 × UInt8 × UInt8
  time : UInt8 × UInt8 × UInt8

/-- `TSISFileOperation`. -/
def EOpInstall : UInt32 := 1
def EOpRun : UInt32 := 2
def EOpText : UInt32 := 4
def EOpNull : UInt32 := 8

/-- The algorithm every function takes from the flags of the package. -/
def compressionOf (flags : UInt16) : UInt32 :=
  if flags &&& EInstFlagNoCompress ≠ 0 then ECompressNone else ECompressAuto

/-! ### File descriptions -/

/-- `GetHash`. -/
def GetHash (env : Env) (rawFile : Option Bytes) : SISField :=
  let hashData := env.sha1 (rawFile.getD [])
  .compound (.SISHash 1) [.leaf (.SISBlob (if rawFile.isSome then hashData else []))]

/-- What `LoadFile` stores through its pointers. -/
structure LoadedFile where
  rawFile : Option Bytes
  compressedSize : UInt64
  uncompressedSize : UInt64
  index : UInt32
  fileData : Option SISField

/-- `LoadFile`. -/
def LoadFile (env : Env) (flags : UInt16) (filename : WStr) (index : UInt32) : Res LoadedFile :=
  if filename = [] then .ok ⟨none, 0, 0, 0, none⟩
  else
    match env.readFile filename with
    | none => .error .exits
    | some content => do
      let compressedFile ← SISCompressed.new env.zlib (.RawFile content) (compressionOf flags)
      .ok ⟨some content, UInt64.ofNat compressedFile.compressedSize, UInt64.ofNat content.length, index,
        some (.plain .SISFileData [.leaf (.SISCompressed compressedFile)])⟩

/-- `SISFileDescription(...)`. -/
def fileDescription (aTarget aMime : WStr) (aCapabilities : Option Bytes) (aHash : SISField)
    (aOperation aOptions : UInt32) (file : LoadedFile) : SISField :=
  let elements := [.leaf (.SISString aTarget), .leaf (.SISString aMime)] ++
    (aCapabilities.toList.map fun c => .leaf (.SISCapabilities c)) ++ [aHash]
  .compound (.SISFileDescription aOperation aOptions file.compressedSize file.uncompressedSize file.index)
    elements

/-- The operation and the options `GetFileDescription` chooses. -/
def fileOperation (file : PKGLINEFILE) (langDep : Bool) : UInt32 × UInt32 :=
  let (operation, options) :=
    match file.type with
    | .EInstFileTypeSimple => (if langDep then 0 else EOpInstall, 0)
    | .EInstFileTypeNull => (EOpNull, 0)
    | .EInstFileTypeText => (EOpText, file.options)
    | .EInstFileTypeRun => (EOpRun, file.options)
    | _ => (EOpInstall, 0)
  -- `mimeType->Length() > 0`
  if file.pszMimeType ≠ [] then (EOpRun, file.options) else (operation, options)

/-- `GetFileDescription`: the description and the file data. -/
def GetFileDescription (env : Env) (flags : UInt16) (file : PKGLINEFILE) (index : UInt32)
    (langDep : Bool) : Res (SISField × Option SISField) := do
  let loaded ← LoadFile env flags file.pszSource index
  let hash := GetHash env loaded.rawFile
  let capabilities := if langDep then none else loaded.rawFile.bind env.capabilities
  let (operation, options) := fileOperation file langDep
  .ok (fileDescription file.pszDest file.pszMimeType capabilities hash operation options loaded,
    loaded.fileData)

/-- `GetLogo`. -/
def GetLogo (env : Env) (flags : UInt16) (logo : LOGO) (index : UInt32) :
    Res (SISField × Option SISField) := do
  let loaded ← LoadFile env flags logo.pszSource index
  let hash := GetHash env loaded.rawFile
  let operation := if logo.pszDest ≠ [] then EOpRun ||| EOpInstall else EOpRun
  let options := EInstFileRunOptionByMimeType ||| EInstFileRunOptionInstall
  .ok (fileDescription logo.pszDest logo.pszMimeType none hash operation options loaded, loaded.fileData)

/-- `array->AddElement(fileData)`, which asks the field for its type. -/
def addFileData (fileDataArray : List SISField) : Option SISField → Res (List SISField)
  | none => .error .nullField
  | some fileData => .ok (fileDataArray ++ [fileData])

/-! ### Conditions -/

/-- `GetExpression`. -/
def GetExpression : PKGLINECONDITION → SISField
  | .binary op pLhs pRhs =>
    .compound (.SISExpression op.exprType 0) [GetExpression pLhs, GetExpression pRhs]
  | .unary .EInstCondFuncExists prim =>
    .compound (.SISExpression 10 0) [.leaf (.SISString prim.pszString)]
  | .unary op pExpr => .compound (.SISExpression op.exprType 0) [GetExpression pExpr]
  | .string s => .compound (.SISExpression 13 0) [.leaf (.SISString s)]
  | .number prim dwNumber => .compound (.SISExpression prim.exprType dwNumber) []

/-- The expression of an `ELSE`: `!0`. -/
def elseExpression : SISField := .compound (.SISExpression 9 0) [.compound (.SISExpression 16 0) []]

/-- The expression of a branch for one language. -/
def languageExpression (langCode : UInt32) : SISField :=
  .compound (.SISExpression 1 0)
    [.compound (.SISExpression 15 EVarLanguage) [], .compound (.SISExpression 16 langCode) []]

/-! ### Embedded packages -/

/-- An exception of the field classes becomes `ErrEmbeddedSIS`. -/
def orEmbeddedSIS {α : Type} : Res α → Res α
  | .error (.throws _) => .error .exits
  | r => r

/-- `LoadSISFile`. -/
def LoadSISFile (env : Env) (name : WStr) (uid : UInt32) : Res (List SISField) := do
  match env.readFile name with
  | none => .error .exits
  | some file => do
    let buffer := file.take (file.length % 2 ^ 32)
    let uidBytes ← copyMem 4 ⟨buffer.drop 8, 4⟩
    if ofLE uidBytes ≠ uid.toNat then .error .exits
    else do
      let mem := buffer.drop 16
      let (field, _) ← orEmbeddedSIS (loadOneField false (loadFuel mem)
        ⟨mem, (buffer.length + (2 ^ 32 - 16)) % 2 ^ 32⟩)
      match field with
      | none => .error .nullField
      | some (.compound (.plain .SISContents) contents) => .ok contents
      | some _ => .error .exits

/-- The body of the loop of `Recompress`.  `iField` is `NULL` in a loaded `SISCompressed`. -/
def recompressFileData (z : Zlib) : SISField → Res SISField
  | .compound c elements =>
    match findElement (LeafClass.id .SISCompressed) elements with
    | some (.leaf (.SISCompressed compressed)) => do
      let compressed ← compressed.Compress z ECompressNone none
      .ok (.compound c (updateElement (.leaf (.SISCompressed compressed)) elements))
    | _ => .error .nullField
  | _ => .error .outOfBounds

/-- `Recompress`. -/
def Recompress (z : Zlib) (algorithm : UInt32) (dataUnit : SISField) : Res SISField :=
  if algorithm ≠ ECompressNone then .ok dataUnit
  else
    match dataUnit with
    | .compound c elements =>
      match findElement (FieldClass.id .SISArray) elements with
      | some (.SISArray iType fileDataArray) => do
        let fileDataArray ← fileDataArray.mapM (recompressFileData z)
        .ok (.compound c (updateElement (.SISArray iType fileDataArray) elements))
      | _ => .error .nullField
    | _ => .error .outOfBounds

/-- The first half of `LoadEmbeddedSis`: the elements of the controller and of the data. -/
def loadEmbedded (env : Env) (file : PKGLINEFILE) : Res (List SISField × List SISField) := do
  let contents ← LoadSISFile env file.pszSource file.options
  match findRemoveElement (LeafClass.id .SISCompressed) contents with
  | (some (.leaf (.SISCompressed cController)), contents) => do
    let cController ← cController.Uncompress env.zlib
    let (field, _) ← cController.LoadChild
    match field with
    | none => .error .nullField
    | some (.compound (.plain .SISController) embedController) =>
      match findElement (PlainClass.id .SISData) contents with
      | some (.compound _ data) => .ok (embedController, data)
      | _ => .error .nullField
    | some _ => .error .exits
  | _ => .error .nullField

/-- `LoadEmbeddedSis`: the controller, its data index set to the number of data units so far, and its
data units. -/
def LoadEmbeddedSis (env : Env) (flags : UInt16) (file : PKGLINEFILE) (count : ℕ) :
    Res (SISField × List SISField) := do
  let (embedController, data) ← loadEmbedded env file
  match findElement (LeafClass.id .SISDataIndex) embedController,
      findElement (FieldClass.id .SISArray) data with
  | some _, some (.SISArray _ embedDataUnitArray) => do
    let index := SISField.leaf (.SISDataIndex (UInt32.ofNat count))
    let dataUnits ← (embedDataUnitArray.filter fun f => f.id = PlainClass.id .SISDataUnit).mapM
      (Recompress env.zlib (compressionOf flags))
    .ok (.plain .SISController (updateElement index embedController), dataUnits)
  | _, _ => .error .nullField

/-! ### The tree under construction -/

/-- The three arrays of a `SISInstallBlock`. -/
structure BlockRef where
  fileDescArray : ℕ
  embeddedArray : ℕ
  ifArray : ℕ

/-- A `SISElseIf`. -/
structure ElseIfNode where
  exp : SISField
  installBlock : BlockRef

/-- A `SISIf`. -/
structure IfNode where
  exp : SISField
  installBlock : BlockRef
  elseIfArray : ℕ

/-- The arrays of descriptions, of controllers, of `SISIf` and of `SISElseIf`. -/
structure Arrays where
  fileDescs : Arena SISField
  embedded : Arena SISField
  ifs : Arena IfNode
  elseIfs : Arena ElseIfNode

/-- `SISInstallBlock(aFiles, aEmbedded, aIfs)`. -/
def installBlockField (files embedded ifs : List SISField) : SISField :=
  .plain .SISInstallBlock [.SISArray (CompoundClass.id .SISFileDescription) files,
    .SISArray (PlainClass.id .SISController) embedded, .SISArray (PlainClass.id .SISIf) ifs]

/-- `SISIf(aExpression, aInstallBlock, aElseIfs)`. -/
def ifField (exp installBlock : SISField) (elseIfs : List SISField) : SISField :=
  .plain .SISIf [exp, installBlock, .SISArray (PlainClass.id .SISElseIf) elseIfs]

/-- `SISElseIf(aExpression, aInstallBlock)`. -/
def elseIfField (exp installBlock : SISField) : SISField := .plain .SISElseIf [exp, installBlock]

/-- The field a block has become.  A block only holds blocks allocated after it, so their number is
enough fuel. -/
def installBlock (A : Arrays) : ℕ → BlockRef → SISField
  | 0, _ => installBlockField [] [] []
  | n + 1, block => installBlockField (A.fileDescs.get block.fileDescArray)
      (A.embedded.get block.embeddedArray)
      ((A.ifs.get block.ifArray).map fun node =>
        ifField node.exp (installBlock A n node.installBlock)
          ((A.elseIfs.get node.elseIfArray).map fun e =>
            elseIfField e.exp (installBlock A n e.installBlock)))

/-- The variables of the loop of `GenerateSISFile`.  `dataUnits` are the elements of `dataUnitArray`
after the first, which is made of `fileDataArray`. -/
structure GenState where
  arrays : Arrays
  fileDescArray : ℕ
  embeddedArray : ℕ
  ifArray : ℕ
  elseIfArray : Option ℕ
  fileDescArrays : List ℕ
  embeddedArrays : List ℕ
  ifArrays : List ℕ
  elseIfArrays : List (Option ℕ)
  index : UInt32
  fileDataArray : List SISField
  dataUnits : List SISField
  optionsArray : List SISField

/-- What the loop reads of the package. -/
structure GenContext where
  env : Env
  flags : UInt16
  langCodes : List UInt32
  stub : Bool

/-- The part of the loop's variables that does not concern the blocks. -/
structure Supplies where
  index : UInt32
  fileDataArray : List SISField
  dataUnits : List SISField
  optionsArray : List SISField

def GenState.supplies (s : GenState) : Supplies :=
  ⟨s.index, s.fileDataArray, s.dataUnits, s.optionsArray⟩

def GenState.withSupplies (s : GenState) (t : Supplies) : GenState :=
  { s with
    index := t.index
    fileDataArray := t.fileDataArray
    dataUnits := t.dataUnits
    optionsArray := t.optionsArray }

/-- One file: `LoadEmbeddedSis` or `GetFileDescription` with the index and the file data.  The result
is a controller or a description. -/
def addFile (ctx : GenContext) (file : PKGLINEFILE) (langDep : Bool) (t : Supplies) :
    Res ((SISField ⊕ SISField) × Supplies) :=
  if file.type = .EInstFileTypeComponent then do
    let (controller, units) ← LoadEmbeddedSis ctx.env ctx.flags file (1 + t.dataUnits.length)
    .ok (.inl controller, { t with dataUnits := t.dataUnits ++ units })
  else do
    let (fileDesc, fileData) ← GetFileDescription ctx.env ctx.flags file t.index langDep
    if langDep ∨ file.type ≠ .EInstFileTypeNull then
      if ctx.stub then .ok (.inr fileDesc, { t with index := t.index + 1 })
      else do
        let fileDataArray ← addFileData t.fileDataArray fileData
        .ok (.inr fileDesc, { t with index := t.index + 1, fileDataArray := fileDataArray })
    else .ok (.inr fileDesc, t)

/-- `SISSupportedOption`s of an option line: `Count()` strings for each, all lists last first. -/
def optionFields (numLanguages : ℕ) : ℕ → List WStr → Res (List SISField)
  | 0, _ => .ok []
  | n + 1, base =>
    -- the walk to the next string goes through `NULL`
    if base.length < numLanguages then .error .nullField
    else do
      let strings := ((base.take numLanguages).map fun s => SISField.leaf (.SISString s)).reverse
      let options ← optionFields numLanguages n (base.drop numLanguages)
      .ok (options ++ [.plain .SISSupportedOption [.SISArray (LeafClass.id .SISString) strings]])

namespace GenState

/-- `embeddedArray->AddElement` or `fileDescArray->AddElement`. -/
def addToBlock (s : GenState) (block : BlockRef) : SISField ⊕ SISField → GenState
  | .inl controller =>
    { s with arrays := { s.arrays with
        embedded := s.arrays.embedded.push block.embeddedArray controller } }
  | .inr fileDesc =>
    { s with arrays := { s.arrays with
        fileDescs := s.arrays.fileDescs.push block.fileDescArray fileDesc } }

def currentBlock (s : GenState) : BlockRef := ⟨s.fileDescArray, s.embeddedArray, s.ifArray⟩

/-- Three new arrays. -/
def newBlock (s : GenState) : BlockRef × GenState :=
  (⟨s.arrays.fileDescs.length, s.arrays.embedded.length, s.arrays.ifs.length⟩,
    { s with arrays := { s.arrays with
        fileDescs := s.arrays.fileDescs.alloc
        embedded := s.arrays.embedded.alloc
        ifs := s.arrays.ifs.alloc } })

def newElseIfs (s : GenState) : ℕ × GenState :=
  (s.arrays.elseIfs.length,
    { s with arrays := { s.arrays with elseIfs := s.arrays.elseIfs.alloc } })

def addIf (s : GenState) (ifArray : ℕ) (node : IfNode) : GenState :=
  { s with arrays := { s.arrays with ifs := s.arrays.ifs.push ifArray node } }

def addElseIf (s : GenState) (elseIfArray : ℕ) (node : ElseIfNode) : GenState :=
  { s with arrays := { s.arrays with elseIfs := s.arrays.elseIfs.push elseIfArray node } }

/-- The pushes at the start of a branch. -/
def pushBlock (s : GenState) : GenState :=
  { s with
    fileDescArrays := s.fileDescArray :: s.fileDescArrays
    ifArrays := s.ifArray :: s.ifArrays
    embeddedArrays := s.embeddedArray :: s.embeddedArrays }

/-- The pops at the end of a branch. -/
def popBlock (s : GenState) : Res GenState :=
  match s.fileDescArrays, s.ifArrays, s.embeddedArrays with
  | f :: fs, i :: is, e :: es =>
    .ok { s with
      fileDescArray := f
      fileDescArrays := fs
      ifArray := i
      ifArrays := is
      embeddedArray := e
      embeddedArrays := es }
  | _, _, _ => .error .outOfBounds

def enterBlock (s : GenState) (block : BlockRef) : GenState :=
  { s with
    fileDescArray := block.fileDescArray
    embeddedArray := block.embeddedArray
    ifArray := block.ifArray }

end GenState

/-- `pkgline->file`. -/
def fileOf : PKGLINENODE → Res PKGLINEFILE
  | .file f | .languageFile f => .ok f
  | _ => .error .outOfBounds

/-- The loop over the languages of a language-dependent file, after the first turn. -/
def languageElseIfs (ctx : GenContext) (elseIfArray : ℕ) : List UInt32 → List PKGLINENODE → GenState →
    Res (List PKGLINENODE × GenState)
  | [], pkglines, s => .ok (pkglines, s)
  | _ :: _, [], _ => .error .outOfBounds
  | langCode :: langCodes, pkgline :: pkglines, s => do
    let (block, s) := s.newBlock
    let file ← fileOf pkgline
    let (field, t) ← addFile ctx file true s.supplies
    let s := (s.withSupplies t).addToBlock block field
    languageElseIfs ctx elseIfArray langCodes pkglines
      (s.addElseIf elseIfArray ⟨languageExpression langCode, block⟩)

/-- A line of the type `EInstPkgLineLanguageFile`, with the lines for the other languages. -/
def languageFile (ctx : GenContext) (file : PKGLINEFILE) (pkglines : List PKGLINENODE) (s : GenState) :
    Res (List PKGLINENODE × GenState) :=
  match ctx.langCodes with
  -- `ifArray->AddElement(NULL)`
  | [] => .error .nullField
  | langCode :: langCodes => do
    let (elseIfArray, s) := s.newElseIfs
    let (block, s) := s.newBlock
    let (field, t) ← addFile ctx file true s.supplies
    let s := (s.withSupplies t).addToBlock block field
    let (pkglines, s) ← languageElseIfs ctx elseIfArray langCodes pkglines s
    .ok (pkglines, s.addIf s.ifArray ⟨languageExpression langCode, block, elseIfArray⟩)

/-- `EInstPkgLineCondIf`. -/
def condIf (exp : SISField) (s : GenState) : GenState :=
  let s := s.pushBlock
  let curIfArray := s.ifArray
  let (block, s) := s.newBlock
  let s := s.enterBlock block
  let s := { s with elseIfArrays := s.elseIfArray :: s.elseIfArrays }
  let (elseIfArray, s) := s.newElseIfs
  { s with elseIfArray := some elseIfArray }.addIf curIfArray ⟨exp, block, elseIfArray⟩

/-- `EInstPkgLineCondElseIf` and `EInstPkgLineCondElse`. -/
def condElseIf (exp : SISField) (s : GenState) : Res GenState := do
  let s ← s.popBlock
  let (block, s) := s.pushBlock.newBlock
  let s := s.enterBlock block
  match s.elseIfArray with
  | none => .error .nullField
  | some elseIfArray => .ok (s.addElseIf elseIfArray ⟨exp, block⟩)

/-- `EInstPkgLineCondEndIf`. -/
def condEndIf (s : GenState) : Res GenState := do
  let s ← s.popBlock
  match s.elseIfArrays with
  | [] => .error .outOfBounds
  | elseIfArray :: elseIfArrays =>
    .ok { s with elseIfArray := elseIfArray, elseIfArrays := elseIfArrays }

/-- The body of the loop of `GenerateSISFile`: the lines left and the state. -/
def genLine (ctx : GenContext) (pkgline : PKGLINENODE) (pkglines : List PKGLINENODE) (s : GenState) :
    Res (List PKGLINENODE × GenState) :=
  match pkgline with
  | .file file => do
    let (field, t) ← addFile ctx file false s.supplies
    .ok (pkglines, (s.withSupplies t).addToBlock s.currentBlock field)
  | .languageFile file => languageFile ctx file pkglines s
  | .condIf cond => .ok (pkglines, condIf (GetExpression cond) s)
  | .condElseIf cond => do
    let s ← condElseIf (GetExpression cond) s
    .ok (pkglines, s)
  | .condElse => do
    let s ← condElseIf elseExpression s
    .ok (pkglines, s)
  | .condEndIf => do
    let s ← condEndIf s
    .ok (pkglines, s)
  | .option option => do
    let options ← optionFields ctx.langCodes.length option.dwNumOptions option.pLangStringBase
    .ok (pkglines, { s with optionsArray := s.optionsArray ++ options })

/-- The loop `while (!pkglines.empty())`; a turn takes at least one line. -/
def genLoop (ctx : GenContext) : ℕ → List PKGLINENODE → GenState → Res GenState
  | _, [], s => .ok s
  | 0, _ :: _, _ => .error .outOfFuel
  | n + 1, pkgline :: pkglines, s => do
    let (pkglines, s) ← genLine ctx pkgline pkglines s
    genLoop ctx n pkglines s

end GnuPoc.Sis
