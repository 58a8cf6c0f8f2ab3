import GnuPoc.Pkg.Header

/-!
# GnuPoc.Pkg.Parse — `CParsePkg` on tokens (`parsepkg.cpp`)

Every function is handed the tokens from `m_token` on and returns the tokens it leaves.  The functions
that call each other run on fuel, which the number of tokens bounds.
-/

namespace GnuPoc.Pkg

/-! ### Conditions -/

/-- The operator of `ParseRelation`. -/
def relationOp : Token → Option BinaryOp
  | .char '=' => some .EInstCondBinOpEq
  | .char '>' => some .EInstCondBinOpGt
  | .char '<' => some .EInstCondBinOpLt
  | .GE_TOKEN => some .EInstCondBinOpGe
  | .LE_TOKEN => some .EInstCondBinOpLe
  | .NE_TOKEN => some .EInstCondBinOpNe
  | _ => none

/-- The operator of `ParseLogicalOp`. -/
def logicalOp : Token → Option BinaryOp
  | .AND_TOKEN => some .EInstCondLogOpAnd
  | .OR_TOKEN => some .EInstCondLogOpOr
  | _ => none

mutual
/-- `ParseExpr` and `ParseLogicalOp`. -/
def ParseLogicalOp : ℕ → List Token → PRes (PKGLINECONDITION × List Token)
  | 0, _ => .error .outOfFuel
  | n + 1, ts => do
    let (left, ts) ← ParseRelation n ts
    logicalOpLoop n left ts
/-- The loop of `ParseLogicalOp`. -/
def logicalOpLoop : ℕ → PKGLINECONDITION → List Token → PRes (PKGLINECONDITION × List Token)
  | 0, _, _ => .error .outOfFuel
  | n + 1, left, ts =>
    match logicalOp (current ts) with
    | none => .ok (left, ts)
    | some op => do
      let (right, ts) ← ParseLogicalOp n ts.tail
      logicalOpLoop n (.binary op left right) ts
def ParseRelation : ℕ → List Token → PRes (PKGLINECONDITION × List Token)
  | 0, _ => .error .outOfFuel
  | n + 1, ts => do
    let (left, ts) ← ParseUnary n ts
    match relationOp (current ts) with
    | none => .ok (left, ts)
    | some op => do
      let (right, ts) ← ParseUnary n ts.tail
      .ok (.binary op left right, ts)
def ParseUnary : ℕ → List Token → PRes (PKGLINECONDITION × List Token)
  | 0, _ => .error .outOfFuel
  | n + 1, .NOT_TOKEN :: ts => do
    let (pExpr, ts) ← ParseUnary n ts
    .ok (.unary .EInstCondUnaryOpNot pExpr, ts)
  | n + 1, .APPPROP_TOKEN :: ts => do
    let ts ← ExpectToken (.char '(') ts
    let _ ← expectNumber ts
    let (arg₀, ts) ← ParseUnary n ts
    let ts ← ExpectToken (.char ',') ts
    let _ ← expectNumber ts
    let (arg₁, ts) ← ParseUnary n ts
    let ts ← ExpectToken (.char ')') ts
    .ok (.binary .EInstCondFuncAppProperties arg₀ arg₁, ts)
  | n + 1, .EXISTS_TOKEN :: ts => do
    let ts ← ExpectToken (.char '(') ts
    let _ ← expectString ts
    let (arg, ts) ← ParseUnary n ts
    let ts ← ExpectToken (.char ')') ts
    .ok (.unary .EInstCondFuncExists arg, ts)
  | n + 1, .DEVPROP_TOKEN :: ts => do
    let ts ← ExpectToken (.char '(') ts
    let _ ← expectNumber ts
    let (arg, ts) ← ParseUnary n ts
    let ts ← ExpectToken (.char ')') ts
    .ok (.unary .EInstCondFuncDevProperties arg, ts)
  | n + 1, ts => ParseFactor n ts
def ParseFactor : ℕ → List Token → PRes (PKGLINECONDITION × List Token)
  | 0, _ => .error .outOfFuel
  | n + 1, .char '(' :: ts => do
    let (expr, ts) ← ParseLogicalOp n ts
    let ts ← ExpectToken (.char ')') ts
    .ok (expr, ts)
  | _ + 1, .QUOTED_STRING_TOKEN s :: ts => .ok (.string s, ts)
  | _ + 1, .ALPHA_TOKEN s :: ts => do
    let (prim, dwNumber) ← lookupVariable s
    .ok (.number prim dwNumber, ts)
  | _ + 1, .NUMERIC_TOKEN n :: ts => .ok (.number .EInstCondPrimTypeNumber n.toUInt32, ts)
  | _ + 1, _ => throws .ErrBadCondFormat
end

/-- The fuel `ParseExpr` starts with. -/
def exprFuel (ts : List Token) : ℕ := 4 * ts.length + 4

def ParseExpr (ts : List Token) : PRes (PKGLINECONDITION × List Token) := ParseLogicalOp (exprFuel ts) ts

/-! ### Files -/

/-- How another `RI`, `RR`, … changes the options of a `FILERUN`. -/
def addRunOption (dwOptions options : UInt32) : UInt32 :=
  let endOptions := EInstFileRunOptionWaitEnd ||| EInstFileRunOptionSendEnd
  (if options &&& endOptions ≠ 0 then dwOptions &&& ~~~endOptions else dwOptions) ||| options

/-- How another `RI`, `RR`, … changes the options of a `FILEMIME`. -/
def addMimeOption (dwOptions options : UInt32) : UInt32 :=
  addRunOption (if options &&& EInstFileRunOptionUninstall ≠ 0 then
    dwOptions &&& ~~~EInstFileRunOptionInstall else dwOptions) options

/-- The table and the update for the further options of a file of this type. -/
def furtherOptions (text : UInt32 → UInt32 → UInt32) :
    TInstFileType → Option (List (String × UInt32) × (UInt32 → UInt32 → UInt32))
  | .EInstFileTypeText => some (KTextOptions, text)
  | .EInstFileTypeRun => some (KRunOptions, addRunOption)
  | .EInstFileTypeMime => some (KRunOptions, addMimeOption)
  | _ => none

/-- `while (m_token==',')`. -/
def optionLoop (further : Option (List (String × UInt32) × (UInt32 → UInt32 → UInt32))) :
    UInt32 → List Token → PRes (UInt32 × List Token)
  | dwOptions, .char ',' :: ts =>
    match further, ts with
    | none, _ => throws .ErrBadOption
    | some (table, update), .ALPHA_TOKEN s :: ts => do
      let options ← ParseOption table s
      optionLoop further (update dwOptions options) ts
    | some _, _ => throws .ErrUnexpectedToken
  | dwOptions, ts => .ok (dwOptions, ts)

/-- What follows the type of a file: the MIME type and the further options. -/
def typeOptions (text : UInt32 → UInt32 → UInt32) (type : TInstFileType) (ts : List Token) :
    PRes (WStr × UInt32 × List Token) :=
  if type = .EInstFileTypeMime then do
    let ts ← ExpectToken (.char ',') ts
    let (pszMimeType, ts) ← expectString ts
    let (options, ts) ← optionLoop (furtherOptions text type)
      (EInstFileRunOptionByMimeType ||| EInstFileRunOptionInstall) ts
    .ok (pszMimeType, options, ts)
  else do
    let (options, ts) ← optionLoop (furtherOptions text type) 0 ts
    .ok ([], options, ts)

/-- `c:\` before a destination without a drive. -/
def addDrive (dest : WStr) : WStr :=
  if 0 < dest.length ∧ (dest.length < 3 ∨ dest.getD 1 0 ≠ 58 ∨ dest.getD 2 0 ≠ 92) then
    wstr "c:\\" ++ dest
  else dest

/-- The source of a file line; an empty one is not looked for. -/
def fileSource (env : ParseEnv) (name : WStr) : PRes WStr :=
  if name = [] then .ok [] else findFile env name

/-- The end of `ParseFileL`, from the type on.  The first text option empties the destination. -/
def fileTypeL (pszSource pszDest : WStr) (ts : List Token) : PRes (PKGLINEFILE × List Token) :=
  match ts with
  | .char ',' :: ts => do
    let (type, ts) ← expectOption KTypeOptions ts
    let (pszMimeType, options, rest) ← typeOptions (fun _ options => options) type ts
    let pszDest := if type = .EInstFileTypeText ∧ current ts = .char ',' then [] else pszDest
    let pszSource := if type = .EInstFileTypeNull then [] else pszSource
    .ok (⟨type, options, pszSource, pszDest, pszMimeType⟩, rest)
  | ts => .ok (⟨.EInstFileTypeSimple, 0, pszSource, pszDest, []⟩, ts)

def ParseFileL (env : ParseEnv) (w : CSISWriter) (ts : List Token) : PRes (CSISWriter × List Token) := do
  checkHeader w
  let (name, ts) ← expectString ts
  let pszSource ← fileSource env name
  let ts ← ExpectToken (.char '-') ts
  let (dest, ts) ← expectString ts
  if dest.head? = some 58 then throws .ErrBadDestinationPath
  else do
    let (file, ts) ← fileTypeL pszSource (addDrive dest) ts
    .ok (w.AddPkgLineNode (.file file), ts)

/-- The three reads of up to four bytes into `uid`, which starts unwritten. -/
def embeddedUID (file : List UInt8) : PRes UInt32 :=
  let read (uid : List UInt8) (fileOffset : ℕ) : List UInt8 :=
    let chunk := (file.drop fileOffset).take 4
    chunk ++ uid.drop chunk.length
  match read (read (read [] 0) 4) 8 with
  | [a, b, c, d] =>
    .ok (a.toUInt32 ||| (b.toUInt32 <<< 8) ||| (c.toUInt32 <<< 16) ||| (d.toUInt32 <<< 24))
  | _ => .error .outOfBounds

/-- `wcsicmp(&pszSource[wcslen(pszSource) - wcslen(DESTFILE)], DESTFILE)`. -/
def checkSuffix (pszSource : WStr) : PRes Unit :=
  if pszSource.length < 4 then .error .outOfBounds
  else if wcsicmp (pszSource.drop (pszSource.length - 4)) (wstr ".sis") then .ok ()
  else throws .ErrPackageNotASISFile

/-- The UID and the name of the file to embed. -/
def checkEmbedded (env : ParseEnv) (pszSource : WStr) (iComponentUid : UInt32) : PRes Unit :=
  match env.readFile pszSource with
  | none => throws .ErrReadFailed
  | some file => do
    let uid ← embeddedUID file
    if uid ≠ iComponentUid then throws .ErrUIDMismatch
    else checkSuffix pszSource

/-- `, (uid)`. -/
def componentUid (ts : List Token) : PRes (UInt32 × List Token) := do
  let ts ← ExpectToken (.char ',') ts
  let ts ← ExpectToken (.char '(') ts
  let (dwNumber, ts) ← expectNumber ts
  let ts ← ExpectToken (.char ')') ts
  .ok (dwNumber.toUInt32, ts)

def ParsePackageL (env : ParseEnv) (w : CSISWriter) (ts : List Token) : PRes (CSISWriter × List Token) := do
  checkHeader w
  let (name, ts) ← expectString ts
  let pszSource ← findFile env name
  let (iComponentUid, ts) ← componentUid ts
  checkEmbedded env pszSource iComponentUid
  .ok (w.AddPkgLineNode (.file ⟨.EInstFileTypeComponent, iComponentUid, pszSource, [], []⟩), ts)

/-! ### Option lists, languages and properties -/

/-- The loop of `ParseOptionsBlockL`, a turn for each option. -/
def optionsLoop (numLangs : ℕ) : ℕ → PKGLINEOPTIONS → List Token → PRes (PKGLINEOPTIONS × List Token)
  | 0, _, _ => .error .outOfFuel
  | n + 1, option, ts => do
    let ts ← ExpectToken (.char '{') ts
    let (base, ts) ← langStrings numLangs option.pLangStringBase ts
    let ts ← ExpectToken (.char '}') ts
    let option : PKGLINEOPTIONS := ⟨option.dwNumOptions + 1, base⟩
    match ts with
    | .char ',' :: ts => optionsLoop numLangs n option ts
    | ts => .ok (option, ts)

def ParseOptionsBlockL (w : CSISWriter) (ts : List Token) : PRes (CSISWriter × List Token) := do
  let ts ← ExpectToken (.char '(') ts
  let (option, ts) ← optionsLoop w.m_wNumLangs.toNat (ts.length + 1) ⟨0, []⟩ ts
  let ts ← ExpectToken (.char ')') ts
  .ok (w.AddPkgLineNode (.option option), ts)

/-- The loop over the languages in `ParseLanguageBlockL`. -/
def languageSources (env : ParseEnv) (packages : Bool) : ℕ → CSISWriter → List Token →
    PRes (CSISWriter × List Token)
  | 0, w, ts => .ok (w, ts)
  | n + 1, w, ts => do
    let ts ← if packages then ExpectToken (.char '@') ts else .ok ts
    let (name, ts) ← expectString ts
    let pszSource ← findFile env name
    let type : TInstFileType := if packages then .EInstFileTypeComponent else .EInstFileTypeSimple
    languageSources env packages n (w.AddPkgLineNode (.languageFile ⟨type, 0, pszSource, [], []⟩)) ts

/-- The type and the options behind the destination of a language block. -/
def languageTypeL (ts : List Token) : PRes (TInstFileType × WStr × UInt32 × List Token) :=
  match ts with
  | .char ',' :: ts => do
    let (dwType, ts) ← expectOption KTypeOptions ts
    if dwType = .EInstFileTypeNull then throws .ErrBadOption
    else do
      let (pszMimeType, dwOptions, ts) ← typeOptions (· ||| ·) dwType ts
      .ok (dwType, pszMimeType, dwOptions, ts)
  | ts => .ok (.EInstFileTypeSimple, [], 0, ts)

def ParseLanguageBlockL (env : ParseEnv) (w : CSISWriter) (ts : List Token) :
    PRes (CSISWriter × List Token) := do
  checkHeader w
  let packages := current ts == .char '@'
  let (w, ts) ← languageSources env packages w.m_wNumLangs.toNat w ts
  let ts ← ExpectToken (.char '}') ts
  if packages then do
    let (dwUID, ts) ← componentUid ts
    .ok (w.SetLangDependCompDestinations dwUID, ts)
  else do
    let ts ← ExpectToken (.char '-') ts
    let (pszDest, ts) ← expectString ts
    let (dwType, pszMimeType, dwOptions, ts) ← languageTypeL ts
    .ok (w.SetLangDependFileDestinations pszDest pszMimeType dwType dwOptions, ts)

/-- The loop of `ParseCapabilityL`. -/
def capabilityLoop : ℕ → CSISWriter → List Token → PRes (CSISWriter × List Token)
  | 0, _, _ => .error .outOfFuel
  | n + 1, w, ts => do
    let (iKey, ts) ← expectNumber ts
    let ts ← ExpectToken (.char '=') ts
    let (iValue, ts) ← expectNumber ts
    let w := w.AddCapabilityNode ⟨iKey.toUInt32, iValue.toUInt32⟩
    match ts with
    | .char ',' :: ts => capabilityLoop n w ts
    | ts => .ok (w, ts)

def ParseCapabilityL (w : CSISWriter) (ts : List Token) : PRes (CSISWriter × List Token) := do
  checkHeader w
  let ts ← ExpectToken (.char '(') ts
  let (w, ts) ← capabilityLoop (ts.length + 1) w ts
  let ts ← ExpectToken (.char ')') ts
  .ok (w, ts)

/-! ### The body -/

/-- `ParseConditionL` for `IF` and `ELSEIF`. -/
def ParseConditionL (node : PKGLINECONDITION → PKGLINENODE) (w : CSISWriter) (ts : List Token) :
    PRes (CSISWriter × List Token) := do
  let (cond, ts) ← ParseExpr ts
  .ok (w.AddPkgLineNode (node cond), ts)

mutual
def ParseEmbeddedBlockL (env : ParseEnv) : ℕ → CSISWriter → List Token → PRes (CSISWriter × List Token)
  | 0, _, _ => .error .outOfFuel
  | n + 1, w, ts =>
    match current ts with
    | .QUOTED_STRING_TOKEN _ => do
      let (w, ts) ← ParseFileL env w ts
      ParseEmbeddedBlockL env n w ts
    | .char '@' => do
      let (w, ts) ← ParsePackageL env w ts.tail
      ParseEmbeddedBlockL env n w ts
    | .char '!' => do
      let (w, ts) ← ParseOptionsBlockL w ts.tail
      ParseEmbeddedBlockL env n w ts
    | .char '{' => do
      let (w, ts) ← ParseLanguageBlockL env w ts.tail
      ParseEmbeddedBlockL env n w ts
    | .char '+' => do
      let (w, ts) ← ParseCapabilityL w ts.tail
      ParseEmbeddedBlockL env n w ts
    | .IF_TOKEN => do
      let (w, ts) ← ParseIfBlockL env n w ts.tail
      ParseEmbeddedBlockL env n w ts
    | .comment => ParseEmbeddedBlockL env n w ts.tail
    | _ => .ok (w, ts)
def ParseIfBlockL (env : ParseEnv) : ℕ → CSISWriter → List Token → PRes (CSISWriter × List Token)
  | 0, _, _ => .error .outOfFuel
  | n + 1, w, ts => do
    let (w, ts) ← ParseConditionL .condIf w ts
    let (w, ts) ← ParseEmbeddedBlockL env n w ts
    elseIfLoop env n w ts
/-- The end of `ParseIfBlockL`, from the loop over the `ELSEIF`s on. -/
def elseIfLoop (env : ParseEnv) : ℕ → CSISWriter → List Token → PRes (CSISWriter × List Token)
  | 0, _, _ => .error .outOfFuel
  | n + 1, w, ts =>
    match current ts with
    | .ELSEIF_TOKEN => do
      let (w, ts) ← ParseConditionL .condElseIf w ts.tail
      let (w, ts) ← ParseEmbeddedBlockL env n w ts
      elseIfLoop env n w ts
    | .ELSE_TOKEN => do
      let (w, ts) ← ParseEmbeddedBlockL env n (w.AddPkgLineNode .condElse) ts.tail
      let ts ← ExpectToken .ENDIF_TOKEN ts
      .ok (w.AddPkgLineNode .condEndIf, ts)
    | _ => do
      let ts ← ExpectToken .ENDIF_TOKEN ts
      .ok (w.AddPkgLineNode .condEndIf, ts)
end

/-! ### The file -/

/-- The fuel a body starts with. -/
def bodyFuel (ts : List Token) : ℕ := 2 * ts.length + 1

/-- The `switch` of `ParseL`, which also says whether a stub needs no more. -/
def parseLine (env : ParseEnv) (w : CSISWriter) (ts : List Token) : PRes (CSISWriter × List Token) :=
  match current ts with
  | .char '&' => ParseLanguagesL w ts.tail
  | .char '#' => ParseHeaderL w ts.tail
  | .char '(' => do
    let (depend, ts) ← ParseDependencyL ')' w ts.tail
    .ok (w.AddDependencyNode depend, ts)
  | .char '[' => do
    let (depend, ts) ← ParseDependencyL ']' w ts.tail
    .ok (w.AddPlatformDependencyNode depend, ts)
  | .char '*' => do
    let ts ← ParseSignatureL w ts.tail
    .ok (w, ts)
  | .char '%' => ParseLocalizedVendorNamesL w ts.tail
  | .char ':' => ParseVendorNameL w ts.tail
  | .char '=' => ParseLogoL env w ts.tail
  | .EOF_TOKEN => .ok (w, ts)
  | _ => throws .ErrUnknownLine

/-- `ParseL`.  A signature line is enough for a stub. -/
def ParseL (env : ParseEnv) (fIsStub : Bool) : ℕ → CSISWriter → Bool → List Token → PRes CSISWriter
  | 0, _, _, _ => .error .outOfFuel
  | n + 1, w, enoughForStub, ts =>
    if current ts = .EOF_TOKEN ∨ (fIsStub ∧ enoughForStub) then .ok w
    else do
      let (w, ts) ← ParseEmbeddedBlockL env (bodyFuel ts) w ts
      let enoughForStub := enoughForStub || current ts == .char '*'
      let (w, ts) ← parseLine env w ts
      ParseL env fIsStub n w enoughForStub ts

end GnuPoc.Pkg
