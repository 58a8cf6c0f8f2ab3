import GnuPoc.Pkg.Line

/-!
# GnuPoc.Pkg.Token — tokens and option tables of the package file (`parsepkg.cpp`)

A `Token` is `m_token` with the member of `m_tokenValue` that belongs to it.  `char` stands for the tokens
above `LAST_TOKEN`, which are their character, and `comment` for a `;` with the rest of its line.  A parser
function takes the tokens from the current one on; behind the last one comes `EOF_TOKEN`.
-/

namespace GnuPoc.Pkg

inductive TParseException
  | ErrUnknownLine | ErrHeaderAlreadyDefined | ErrLanguagesAlreadyDefined | ErrUnknownLanguagesId
  | ErrHeaderNotDefined | ErrFileNotFound | ErrPackageNotASISFile | ErrBadCondFormat | ErrReadFailed
  | ErrBadOption | ErrUnexpectedToken | ErrUnknownVariable | ErrUIDMismatch | ErrBadDestinationPath
  | ErrLocalizedVendorNamesAlreadyDefined | ErrVendorNameAlreadyDefined
  deriving DecidableEq, Repr

inductive ParseStop
  | throws (e : TParseException)
  | outOfBounds
  | outOfFuel
  deriving DecidableEq, Repr

abbrev PRes (α : Type) := Except ParseStop α

def throws {α : Type} (e : TParseException) : PRes α := .error (.throws e)

inductive Token
  | EOF_TOKEN
  | NUMERIC_TOKEN (dwNumber : UInt64)
  | ALPHA_TOKEN (pszString : WStr)
  | QUOTED_STRING_TOKEN (pszString : WStr)
  | AND_TOKEN | OR_TOKEN | NOT_TOKEN | EXISTS_TOKEN | DEVPROP_TOKEN | APPPROP_TOKEN
  | GE_TOKEN | LE_TOKEN | NE_TOKEN | IF_TOKEN | ELSEIF_TOKEN | ELSE_TOKEN | ENDIF_TOKEN
  | TYPE_TOKEN | KEY_TOKEN
  | char (c : Char)
  | comment
  deriving DecidableEq, Repr

/-- `m_token`. -/
def current (ts : List Token) : Token := ts.headD .EOF_TOKEN

@[simp] theorem current_cons (t : Token) (ts : List Token) : current (t :: ts) = t := rfl

/-- `ExpectToken`, with the `GetNextToken` that follows it. -/
def ExpectToken (aToken : Token) (ts : List Token) : PRes (List Token) :=
  if current ts = aToken then .ok ts.tail else throws .ErrUnexpectedToken

@[simp] theorem expectToken_cons (t : Token) (ts : List Token) : ExpectToken t (t :: ts) = .ok ts :=
  if_pos rfl

/-- `ExpectToken(QUOTED_STRING_TOKEN)` and the string. -/
def expectString : List Token → PRes (WStr × List Token)
  | .QUOTED_STRING_TOKEN s :: ts => .ok (s, ts)
  | _ => throws .ErrUnexpectedToken

/-- `ExpectToken(NUMERIC_TOKEN)` and the number. -/
def expectNumber : List Token → PRes (UInt64 × List Token)
  | .NUMERIC_TOKEN n :: ts => .ok (n, ts)
  | _ => throws .ErrUnexpectedToken

@[simp] theorem pres_ok_bind {α β : Type} (a : α) (f : α → PRes β) :
    ((Except.ok a : PRes α) >>= f) = f a := rfl

/-! ### Names -/

def wstr (s : String) : WStr := s.toList.map Char.val

/-- `towlower` in the C locale. -/
def towlower (c : UInt32) : UInt32 := if 65 ≤ c ∧ c ≤ 90 then c + 32 else c

/-- `wcsicmp(s1, s2) == 0`. -/
def wcsicmp (s1 s2 : WStr) : Bool := s1.map towlower == s2.map towlower

/-- The loop over a table of `SParseOpt` or `SParseToken`. -/
def findOption {α : Type} (options : List (String × α)) (s : WStr) : Option α :=
  (options.find? fun o => wcsicmp s (wstr o.1)).map Prod.snd

/-- `ParseOption` on the name. -/
def ParseOption {α : Type} (options : List (String × α)) (s : WStr) : PRes α :=
  match findOption options s with
  | some v => .ok v
  | none => throws .ErrBadOption

theorem parseOption_eq {α : Type} {options : List (String × α)} {s : WStr} {v : α}
    (h : findOption options s = some v) : ParseOption options s = .ok v := by
  rw [ParseOption, h]

/-- `ExpectToken(ALPHA_TOKEN)` and `ParseOption`. -/
def expectOption {α : Type} (options : List (String × α)) : List Token → PRes (α × List Token)
  | .ALPHA_TOKEN s :: ts => do
    let v ← ParseOption options s
    .ok (v, ts)
  | _ => throws .ErrUnexpectedToken

def KHeaderOptions : List (String × UInt16) :=
  [("IU", EInstFlagIsUnicode), ("SH", EInstFlagShutdownApps), ("NC", EInstFlagNoCompress),
    ("IUNICODE", EInstFlagIsUnicode), ("SHUTDOWNAPPS", EInstFlagShutdownApps),
    ("NOCOMPRESS", EInstFlagNoCompress)]

/-- `EInstApplication`, `EInstAugmentation` and `EInstPartialUpgrade`. -/
def KSISTypes : List (String × UInt32) :=
  [("SA", EInstApplication), ("SP", EInstAugmentation), ("PU", EInstPartialUpgrade),
    ("SISAPP", EInstApplication), ("SISPATCH", EInstAugmentation),
    ("PARTIALUPGRADE", EInstPartialUpgrade)]

open TInstFileType in
def KTypeOptions : List (String × TInstFileType) :=
  [("FF", EInstFileTypeSimple), ("FT", EInstFileTypeText), ("FR", EInstFileTypeRun),
    ("FN", EInstFileTypeNull), ("FM", EInstFileTypeMime), ("FILE", EInstFileTypeSimple),
    ("FILETEXT", EInstFileTypeText), ("FILERUN", EInstFileTypeRun), ("FILENULL", EInstFileTypeNull),
    ("FILEMIME", EInstFileTypeMime)]

def KTextOptions : List (String × UInt32) :=
  [("TC", EInstFileTextOptionContinue), ("TS", EInstFileTextOptionSkipOneIfNo),
    ("TA", EInstFileTextOptionAbortIfNo), ("TE", EInstFileTextOptionExitIfNo),
    ("TEXTCONTINUE", EInstFileTextOptionContinue), ("TEXTSKIP", EInstFileTextOptionSkipOneIfNo),
    ("TEXTABORT", EInstFileTextOptionAbortIfNo), ("TEXTEXIT", EInstFileTextOptionExitIfNo)]

def KRunOptions : List (String × UInt32) :=
  let runRemove := EInstFileRunOptionUninstall ||| EInstFileRunOptionWaitEnd
  let runBoth := EInstFileRunOptionInstall ||| EInstFileRunOptionUninstall ||| EInstFileRunOptionWaitEnd
  [("RI", EInstFileRunOptionInstall), ("RR", runRemove), ("RB", runBoth),
    ("RS", EInstFileRunOptionSendEnd), ("RW", EInstFileRunOptionWaitEnd),
    ("RUNINSTALL", EInstFileRunOptionInstall), ("RUNREMOVE", runRemove), ("RUNBOTH", runBoth),
    ("RUNSENDEND", EInstFileRunOptionSendEnd), ("RUNWAITEND", EInstFileRunOptionWaitEnd)]

/-- The names in `KLangOptions` with their `TLanguage`. -/
def KLangOptions : List (String × UInt16) :=
  [("EN", 1), ("FR", 2), ("GE", 3), ("SP", 4), ("IT", 5), ("SW", 6), ("DA", 7), ("NO", 8), ("FI", 9),
    ("AM", 10), ("SF", 11), ("SG", 12), ("PO", 13), ("TU", 14), ("IC", 15), ("RU", 16), ("HU", 17),
    ("DU", 18), ("BL", 19), ("AU", 20), ("BF", 21), ("AS", 22), ("NZ", 23), ("IF", 24), ("CS", 25),
    ("SK", 26), ("PL", 27), ("SL", 28), ("TC", 29), ("HK", 30), ("ZH", 31), ("JA", 32), ("TH", 33),
    ("AF", 34), ("SQ", 35), ("AH", 36), ("AR", 37), ("HY", 38), ("TL", 39), ("BE", 40), ("BN", 41),
    ("BG", 42), ("MY", 43), ("CA", 44), ("HR", 45), ("CE", 46), ("IE", 47), ("SF", 48), ("ET", 49),
    ("FA", 50), ("CF", 51), ("GD", 52), ("KA", 53), ("EL", 54), ("CG", 55), ("GU", 56), ("HE", 57),
    ("HI", 58), ("IN", 59), ("GA", 60), ("SZ", 61), ("KN", 62), ("KK", 63), ("KM", 64), ("KO", 65),
    ("LO", 66), ("LV", 67), ("LT", 68), ("MK", 69), ("MS", 70), ("ML", 71), ("MR", 72), ("MO", 73),
    ("MN", 74), ("NN", 75), ("BP", 76), ("PA", 77), ("RO", 78), ("SR", 79), ("SI", 80), ("SO", 81),
    ("OS", 82), ("LS", 83), ("SH", 84), ("FS", 85), ("TA", 87), ("TE", 88), ("BO", 89), ("TI", 90),
    ("CT", 91), ("TK", 92), ("UK", 93), ("UR", 94), ("VI", 96), ("CY", 97), ("ZU", 98)]

/-- The names of `haltable.hm`, in order. -/
def haltable : List String :=
  ["Manufacturer", "ManufacturerHardwareRev", "ManufacturerSoftwareRev", "ManufacturerSoftwareBuild",
    "Model", "MachineUid", "DeviceFamily", "DeviceFamilyRev", "CPU", "CPUArch", "CPUABI", "CPUSpeed",
    "SystemStartupReason", "SystemException", "SystemTickPeriod", "MemoryRAM", "MemoryRAMFree",
    "MemoryROM", "MemoryPageSize", "PowerGood", "PowerBatteryGood", "PowerBackup", "PowerBackupGood",
    "PowerExternal", "Keyboard", "KeyboardDeviceKeys", "KeyboardAppKeys", "KeyboardClick",
    "KeyboardClickState", "KeyboardClickVolume", "KeyboardClickVolumeMax", "DisplayXPixels",
    "DisplayYPixels", "DisplayXTwips", "DisplayYTwips", "DisplayColors", "DisplayState",
    "DisplayContrast", "DisplayContrastMax", "Backlight", "BacklightState", "Pen", "PenX", "PenY",
    "PenDisplayOn", "PenClick", "PenClickState", "PenClickVolume", "PenClickVolumeMax", "Mouse",
    "MouseX", "MouseY", "MouseState", "MouseSpeed", "MouseAcceleration", "MouseButtons",
    "MouseButtonState", "CaseState", "CaseSwitch", "CaseSwitchDisplayOn", "CaseSwitchDisplayOff",
    "LEDs", "LEDmask", "IntegratedPhone", "DisplayBrightness", "DisplayBrightnessMax",
    "KeyboardBacklightState", "AccessoryPower"]

def KVariableLookupTable : List (String × UInt32) :=
  haltable.zip ((List.range haltable.length).map UInt32.ofNat) ++
    [("NumHalAttributes", 0x66), ("Language", EVarLanguage), ("RemoteInstall", EVarRemoteInstall)]

/-- `wcstol(temp, &end, 10)` on letters, digits and underscores: `none` when `end == temp` or on
`ERANGE`. -/
def wcstol (temp : WStr) : Option UInt64 :=
  let digits := temp.takeWhile fun c => 48 ≤ c && c ≤ 57
  let n := digits.foldl (fun n c => 10 * n + (c.toNat - 48)) 0
  if digits = [] ∨ 2 ^ 63 ≤ n then none else some (UInt64.ofNat n)

/-- The variable an `ALPHA_TOKEN` names in a condition.  `NUMVAROPTIONS` divides by the size of the smaller
`SParseOpt`, so the search for an unknown name leaves the table. -/
def lookupVariable (s : WStr) : PRes (NumberPrim × UInt32) :=
  if wcsicmp (s.take 6) (wstr "option") then
    match wcstol (s.drop 6) with
    | some optionNum => .ok (.EInstCondPrimTypeOption, optionNum.toUInt32)
    | none => throws .ErrUnknownVariable
  else
    match findOption KVariableLookupTable s with
    | some dwOpt => .ok (.EInstCondPrimTypeVariable, dwOpt &&& 0xFFFF)
    | none => .error .outOfBounds

end GnuPoc.Pkg
