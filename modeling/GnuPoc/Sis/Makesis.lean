import GnuPoc.Sis.Generate

/-!
# GnuPoc.Sis.Makesis — the SIS file `GenerateSISFile` writes (`sisfilegen.cpp`)

The controller's elements before and after the walk over the package lines, the signature of `-c`, the
data units and the contents with their checksums.
-/

namespace GnuPoc.Sis

open GnuPoc.Lib GnuPoc.Pkg

/-! ### The header fields of the controller -/

/-- `GetStringArray`. -/
def GetStringArray (base : List WStr) : SISField :=
  .SISArray (LeafClass.id .SISString) (base.reverse.map fun s => .leaf (.SISString s))

/-- `GetDependencyArray`. -/
def GetDependencyArray (base : List DEPENDNODE) : SISField :=
  .SISArray (PlainClass.id .SISDependency) (base.reverse.map fun d =>
    .plain .SISDependency [.leaf (.SISUid d.dwUID),
      .plain .SISVersionRange (.leaf (.SISVersion d.fromMajor d.fromMinor d.fromBuild) ::
        d.toVersion.toList.map fun v => .leaf (.SISVersion v.1 v.2.1 v.2.2)),
      GetStringArray d.pLangStringBase])

/-- `GetPropertyArray`. -/
def GetPropertyArray (base : List CAPABILITYNODE) : SISField :=
  .SISArray (LeafClass.id .SISProperty) (base.reverse.map fun c =>
    .leaf (.SISProperty c.iKey c.iValue))

/-- The date and the time of `CreateSISInfo`. -/
def infoDateTime (env : Env) (siswriter : CSISWriter) (stub : Bool) : List SISField :=
  if stub then [.leaf (.SISDate 0x7d4 0x00 0x01), .leaf (.SISTime 0 0 0)]
  else
    match siswriter.timestamp with
    | some t => [.leaf (.SISDate t.dwYear.toUInt16 t.dwMonth.toUInt8 t.dwDay.toUInt8),
        .leaf (.SISTime t.dwHours.toUInt8 t.dwMinutes.toUInt8 t.dwSeconds.toUInt8)]
    | none => [.leaf (.SISDate env.date.1 env.date.2.1 env.date.2.2),
        .leaf (.SISTime env.time.1 env.time.2.1 env.time.2.2)]

/-- `CreateSISInfo`.  `ErrNoVendorName` and `ErrNoLocalizedVendorName` end the run. -/
def CreateSISInfo (env : Env) (siswriter : CSISWriter) (stub : Bool) : Res SISField :=
  match siswriter.m_pVendorName with
  | [] => .error .exits
  | vendorName :: _ =>
    if siswriter.m_pLocalizedVendorBase = [] then .error .exits
    else
      let flags := siswriter.m_wFlags &&& ~~~(EInstFlagNoCompress ||| EInstFlagIsUnicode)
      .ok (.compound (.SISInfo siswriter.m_wType.toUInt8 flags.toUInt8)
        [.leaf (.SISUid siswriter.m_dwUID), .leaf (.SISString vendorName),
          GetStringArray siswriter.m_pLangStringBase, GetStringArray siswriter.m_pLocalizedVendorBase,
          .leaf (.SISVersion siswriter.m_wMajor.toUInt32 siswriter.m_wMinor.toUInt32 siswriter.m_dwBuild),
          .plain .SISDateTime (infoDateTime env siswriter stub)])

/-- The loop over the logos: the last one stays in the controller, all leave their file data. -/
def addLogos (env : Env) (flags : UInt16) : List LOGO → Option SISField → UInt32 → List SISField →
    Res (Option SISField × UInt32 × List SISField)
  | [], logoField, index, fileDataArray => .ok (logoField, index, fileDataArray)
  | logo :: logos, _, index, fileDataArray => do
    let (fileDesc, fileData) ← GetLogo env flags logo index
    let fileDataArray ← addFileData fileDataArray fileData
    addLogos env flags logos (some (.plain .SISLogo [fileDesc])) (index + 1) fileDataArray

/-- The languages in the order of the package file. -/
def languageCodes (siswriter : CSISWriter) : List UInt32 :=
  siswriter.m_pLangBase.reverse.map fun l => l.toUInt32

def genContext (env : Env) (siswriter : CSISWriter) (stub : Bool) : GenContext :=
  ⟨env, siswriter.m_wFlags, languageCodes siswriter, stub⟩

/-- The variables before the loop: one open block, no `ELSEIF` array. -/
def genStart (index : UInt32) (fileDataArray : List SISField) : GenState where
  arrays := ⟨[[]], [[]], [[]], []⟩
  fileDescArray := 0
  embeddedArray := 0
  ifArray := 0
  elseIfArray := none
  fileDescArrays := []
  embeddedArrays := []
  ifArrays := []
  elseIfArrays := []
  index := index
  fileDataArray := fileDataArray
  dataUnits := []
  optionsArray := []

/-- The install block of the controller: `SISInstallBlock` of the arrays open after the loop. -/
def GenState.topBlock (s : GenState) : SISField :=
  installBlock s.arrays s.arrays.ifs.length s.currentBlock

/-- The elements of the controller up to the install block, and the loop's variables. -/
def generateElements (env : Env) (siswriter : CSISWriter) (stub : Bool) :
    Res (List SISField × GenState) := do
  let info ← CreateSISInfo env siswriter stub
  let languages := (languageCodes siswriter).map fun l => SISField.leaf (.SISLanguage l)
  let deviceDep := GetDependencyArray siswriter.m_pPlatformDependBase
  let packageDep := GetDependencyArray siswriter.m_pDependBase
  let (logoField, index, fileDataArray) ←
    addLogos env siswriter.m_wFlags siswriter.m_pLogoBase.reverse none 0 []
  let pkglines := siswriter.m_pPkgLineBase.reverse
  let s ← genLoop (genContext env siswriter stub) pkglines.length pkglines
    (genStart index fileDataArray)
  .ok ([info, .plain .SISSupportedOptions [.SISArray (PlainClass.id .SISSupportedOption) s.optionsArray],
      .plain .SISSupportedLanguages [.SISArray (LeafClass.id .SISLanguage) languages],
      .plain .SISPrerequisites [deviceDep, packageDep],
      .plain .SISProperties [GetPropertyArray siswriter.m_pCapabilityBase]] ++
    logoField.toList ++ [s.topBlock], s)

/-- The controller with its signature, when one is wanted, and its data index. -/
def signController (env : Env) (siswriter : CSISWriter) (elements : List SISField) :
    Res (List SISField) := do
  let dataIndex := SISField.leaf (.SISDataIndex 0)
  if siswriter.m_bSelfsign then do
    let chain ← makeChain env.selfsigned (.plain .SISController elements)
    .ok (elements ++ [chain] ++ [dataIndex])
  else .ok (elements ++ [dataIndex])

/-- The elements of the controller, and the data units: the package's own, then the embedded ones. -/
def generateController (env : Env) (siswriter : CSISWriter) (stub : Bool) :
    Res (List SISField × List SISField) := do
  let (elements, s) ← generateElements env siswriter stub
  let controller ← signController env siswriter elements
  let dataUnit := SISField.plain .SISDataUnit
    [.SISArray (PlainClass.id .SISFileData) s.fileDataArray]
  .ok (controller, dataUnit :: s.dataUnits)

/-! ### The file -/

/-- `uidCrc`. -/
def uidCrc (uid1 uid2 uid3 : UInt32) : UInt32 :=
  let high (u : UInt32) : Bytes := [(u >>> 8).toUInt8, (u >>> 24).toUInt8]
  let low (u : UInt32) : Bytes := [u.toUInt8, (u >>> 16).toUInt8]
  let crc1 := crcFast crcInit (high uid1 ++ high uid2 ++ high uid3) 6
  let crc2 := crcFast crcInit (low uid1 ++ low uid2 ++ low uid3) 6
  (crc1.toUInt32 <<< 16) ||| crc2.toUInt32

/-- `WriteHeaderL`. -/
def WriteHeaderL (uid1 uid2 uid3 : UInt32) : Bytes :=
  writeUint32 uid1 ++ writeUint32 uid2 ++ writeUint32 uid3 ++ writeUint32 (uidCrc uid1 uid2 uid3)

/-- The elements of the `SISContents`. -/
def generateContents (env : Env) (siswriter : CSISWriter) : Res (List SISField) := do
  let (controller, dataUnits) ← generateController env siswriter false
  let data := SISField.plain .SISData [.SISArray (PlainClass.id .SISDataUnit) dataUnits]
  let compressedController ← SISCompressed.new env.zlib (.field (.plain .SISController controller))
    (compressionOf siswriter.m_wFlags)
  let dataContent ← data.headerData
  let compressedControllerData ← (SISField.leaf (.SISCompressed compressedController)).headerData
  let dcsum := crcFast crcInit dataContent dataContent.length
  let ccsum := crcFast crcInit compressedControllerData compressedControllerData.length
  .ok [.leaf (.SISControllerChecksum ccsum), .leaf (.SISDataChecksum dcsum),
    .leaf (.SISCompressed compressedController), data]

/-- `GenerateSISFile`. -/
def GenerateSISFile (env : Env) (siswriter : CSISWriter) (stub : Bool) : Res Bytes :=
  if stub then do
    let (controller, _) ← generateController env siswriter true
    (SISField.plain .SISController controller).headerData
  else do
    let contents ← generateContents env siswriter
    let data ← (SISField.plain .SISContents contents).headerData
    .ok (WriteHeaderL 0x10201A7A 0x0 siswriter.m_dwUID ++ data)

end GnuPoc.Sis
