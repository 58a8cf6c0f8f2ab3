import GnuPoc.Pkg.Token

/-!
# GnuPoc.Pkg.Header — the lines of a package file outside its body (`parsepkg.cpp`)

The languages, the header, the vendor's names, the logo, the dependencies and the signature line, which
is read and ignored.
-/

namespace GnuPoc.Pkg

/-- What the parser asks the file system. -/
structure ParseEnv where
  /-- the name the file is found under, when it is found -/
  DoesExist : WStr → Option WStr
  readFile : WStr → Option (List UInt8)

/-- `DoesExist` and `throw ErrFileNotFound`. -/
def findFile (env : ParseEnv) (name : WStr) : PRes WStr :=
  match env.DoesExist name with
  | some found => .ok found
  | none => throws .ErrFileNotFound

/-- `throw ErrHeaderNotDefined`. -/
def checkHeader (w : CSISWriter) : PRes Unit :=
  if w.AreLangStringInit then .ok () else throws .ErrHeaderNotDefined

/-- The strings of a `{ … }`, one for each language, in front of `base`. -/
def langStrings : ℕ → List WStr → List Token → PRes (List WStr × List Token)
  | 0, base, ts => .ok (base, ts)
  | n + 1, base, ts => do
    let (s, ts) ← expectString ts
    if n = 0 then .ok (s :: base, ts)
    else do
      let ts ← ExpectToken (.char ',') ts
      langStrings n (s :: base) ts

/-- `{ … }` with `langStrings`. -/
def namesBlock (w : CSISWriter) (base : List WStr) (ts : List Token) : PRes (List WStr × List Token) := do
  let ts ← ExpectToken (.char '{') ts
  let (base, ts) ← langStrings w.m_wNumLangs.toNat base ts
  let ts ← ExpectToken (.char '}') ts
  .ok (base, ts)

/-! ### Languages -/

/-- The code a language token stands for. -/
def languageCode : List Token → PRes (UInt16 × List Token)
  | .ALPHA_TOKEN s :: ts =>
    match findOption KLangOptions s with
    | some wLang => .ok (wLang, ts)
    | none => throws .ErrUnknownLanguagesId
  | .NUMERIC_TOKEN n :: ts =>
    if n ≤ 1000 then .ok (n.toUInt16, ts) else throws .ErrUnknownLanguagesId
  | _ => throws .ErrUnknownLanguagesId

/-- `(dialect)`. -/
def languageDialect (wLang : UInt16) (ts : List Token) : PRes (UInt16 × List Token) :=
  if current ts = .char '(' then do
    let (n, ts) ← expectNumber ts.tail
    let ts ← ExpectToken (.char ')') ts
    .ok (wLang + n.toUInt16, ts)
  else .ok (wLang, ts)

def languagesLoop : ℕ → CSISWriter → List Token → PRes (CSISWriter × List Token)
  | 0, _, _ => .error .outOfFuel
  | n + 1, w, ts => do
    let (wLang, ts) ← languageCode ts
    let (wLang, ts) ← languageDialect wLang ts
    let w := w.AddLanguageNode wLang
    if current ts = .char ',' then languagesLoop n w ts.tail else .ok (w, ts)

def ParseLanguagesL (w : CSISWriter) (ts : List Token) : PRes (CSISWriter × List Token) :=
  if w.m_wNumLangs ≠ 0 then throws .ErrLanguagesAlreadyDefined
  else languagesLoop (ts.length + 1) w ts

/-- English, when no language was named. -/
def assumeEnglish (w : CSISWriter) : CSISWriter :=
  if w.m_wNumLangs = 0 then w.AddLanguageNode 1 else w

/-! ### The header -/

/-- The loop over the options of the header: the type and the flags.  No option is zero, so `narrow`
stays false. -/
def headerOptions : UInt32 → UInt16 → List Token → PRes (UInt32 × UInt16 × List Token)
  | dwType, dwFlags, .char ',' :: .TYPE_TOKEN :: .char '=' :: .ALPHA_TOKEN s :: ts => do
    let type ← ParseOption KSISTypes s
    headerOptions (dwType ||| type) dwFlags ts
  | dwType, dwFlags, .char ',' :: .ALPHA_TOKEN s :: ts => do
    let option ← ParseOption KHeaderOptions s
    headerOptions dwType (dwFlags ||| option) ts
  | _, _, .char ',' :: _ => throws .ErrUnexpectedToken
  | dwType, dwFlags, ts => .ok (dwType, dwFlags, ts)

def ParseHeaderL (w : CSISWriter) (ts : List Token) : PRes (CSISWriter × List Token) := do
  if w.AreLangStringInit then throws .ErrHeaderAlreadyDefined
  else do
    let w := assumeEnglish w
    let (names, ts) ← namesBlock w w.m_pLangStringBase ts
    let w := { w with m_pLangStringBase := names }
    let ts ← ExpectToken (.char ',') ts
    let ts ← ExpectToken (.char '(') ts
    let (dwUID, ts) ← expectNumber ts
    let ts ← ExpectToken (.char ')') ts
    let ts ← ExpectToken (.char ',') ts
    let (wMajor, ts) ← expectNumber ts
    let ts ← ExpectToken (.char ',') ts
    let (wMinor, ts) ← expectNumber ts
    let ts ← ExpectToken (.char ',') ts
    let (dwBuild, ts) ← expectNumber ts
    let (dwType, dwFlags, ts) ← headerOptions 0 0 ts
    .ok (w.SetVersionInfo dwUID.toUInt32 wMajor.toUInt16 wMinor.toUInt16 dwBuild.toUInt32 dwType
      (dwFlags ||| EInstFlagIsUnicode), ts)

def ParseLocalizedVendorNamesL (w : CSISWriter) (ts : List Token) : PRes (CSISWriter × List Token) := do
  if w.AreLocalizedVendorNamesInit then throws .ErrLocalizedVendorNamesAlreadyDefined
  else do
    let w := assumeEnglish w
    let (names, ts) ← namesBlock w w.m_pLocalizedVendorBase ts
    .ok ({ w with m_pLocalizedVendorBase := names }, ts)

def ParseVendorNameL (w : CSISWriter) (ts : List Token) : PRes (CSISWriter × List Token) := do
  if w.IsVendorNameInit then throws .ErrVendorNameAlreadyDefined
  else do
    let (pszString, ts) ← expectString ts
    .ok (w.AddVendorNode pszString, ts)

def ParseLogoL (env : ParseEnv) (w : CSISWriter) (ts : List Token) : PRes (CSISWriter × List Token) := do
  let (name, ts) ← expectString ts
  let pszSource ← findFile env name
  let ts ← ExpectToken (.char ',') ts
  let (pszMimeType, ts) ← expectString ts
  let ts ← ExpectToken (.char ',') ts
  let (pszDest, ts) ← expectString ts
  .ok (w.AddLogo ⟨pszSource, pszDest, pszMimeType⟩, ts)

/-! ### Dependencies and signature -/

/-- `GetVersionNumToken`, with the `GetNextToken` behind it. -/
def GetVersionNumToken : List Token → PRes (UInt32 × List Token)
  | .NUMERIC_TOKEN n :: ts => .ok (n.toUInt32, ts)
  | .char '*' :: ts => .ok (0xFFFFFFFF, ts)
  | _ => throws .ErrUnexpectedToken

/-- Major, minor and build. -/
def versionNumbers (ts : List Token) : PRes ((UInt32 × UInt32 × UInt32) × List Token) := do
  let (major, ts) ← GetVersionNumToken ts
  let ts ← ExpectToken (.char ',') ts
  let (minor, ts) ← GetVersionNumToken ts
  let ts ← ExpectToken (.char ',') ts
  let (build, ts) ← GetVersionNumToken ts
  .ok ((major, minor, build), ts)

/-- `~` and a second version. -/
def toVersion (ts : List Token) : PRes (Option (UInt32 × UInt32 × UInt32) × List Token) :=
  if current ts = .char '~' then do
    let (version, ts) ← versionNumbers ts.tail
    .ok (some version, ts)
  else .ok (none, ts)

/-- `ParseDependencyL` and `ParsePlatformDependencyL`, which differ in the bracket behind the UID. -/
def ParseDependencyL (close : Char) (w : CSISWriter) (ts : List Token) : PRes (DEPENDNODE × List Token) := do
  checkHeader w
  let (dwUID, ts) ← expectNumber ts
  let ts ← ExpectToken (.char close) ts
  let ts ← ExpectToken (.char ',') ts
  let ((fromMajor, fromMinor, fromBuild), ts) ← versionNumbers ts
  let (toVersion, ts) ← toVersion ts
  let ts ← ExpectToken (.char ',') ts
  let (names, ts) ← namesBlock w [] ts
  .ok (⟨dwUID.toUInt32, fromMajor, fromMinor, fromBuild, toVersion, names⟩, ts)

/-- `ParseSignatureL`. -/
def ParseSignatureL (w : CSISWriter) (ts : List Token) : PRes (List Token) := do
  checkHeader w
  let (_, ts) ← expectString ts
  let ts ← ExpectToken (.char ',') ts
  let (_, ts) ← expectString ts
  match ts with
  | .char ',' :: .KEY_TOKEN :: ts => do
    let ts ← ExpectToken (.char '=') ts
    let (_, ts) ← expectString ts
    .ok ts
  | .char ',' :: ts => .ok ts
  | ts => .ok ts

end GnuPoc.Pkg
