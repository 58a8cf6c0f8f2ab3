import GnuPoc.Lib.Run
import GnuPoc.Pkg.Token

/-!
# GnuPoc.Pkg.Lexer — the lexical analyzer of `CParsePkg` (`parsepkg.cpp`)

A package file is the list of its 16-bit units from the file pointer on; behind the last one `GetNextChar`
gives 0.  `m_tokenValue` is the union of a `dwNumber` and the `MAX_STRING` characters of `pszString`, of which
the first two are the low and the high word of the number.  It starts with whatever stood in memory.  The
locale is the C locale.
-/

namespace GnuPoc.Pkg

open GnuPoc.Lib

def MAX_STRING : ℕ := 255

/-- The `TParseException`s of the lexical analyzer. -/
inductive LexException
  | ErrReadFailed | ErrBadString | ErrInvalidEscape | ErrNumberOutOfRange
  deriving DecidableEq, Repr

inductive LexStop
  | throws (e : LexException)
  | outOfBounds
  | outOfFuel
  deriving DecidableEq, Repr

structure Lexer where
  m_pkgChar : UInt32
  m_file : List UInt16
  m_tokenValue : List UInt32
  /-- `errno == ERANGE` -/
  erange : Bool
  deriving DecidableEq, Repr

abbrev Lex (α : Type) := Run LexStop Lexer α

/-! ### Characters -/

def iswspace (c : UInt32) : Bool := (9 ≤ c && c ≤ 13) || c == 32

def iswdigit (c : UInt32) : Bool := 48 ≤ c && c ≤ 57

def iswxdigit (c : UInt32) : Bool := iswdigit c || (65 ≤ c && c ≤ 70) || (97 ≤ c && c ≤ 102)

def iswalpha (c : UInt32) : Bool := (65 ≤ c && c ≤ 90) || (97 ≤ c && c ≤ 122)

def iswalnum (c : UInt32) : Bool := iswalpha c || iswdigit c

/-- The value of a decimal or hexadecimal digit. -/
def digitValue (c : UInt32) : ℕ :=
  if c ≤ 57 then c.toNat - 48 else if c ≤ 70 then c.toNat - 55 else c.toNat - 87

/-- What `wcstoul` returns, whether `end != temp`, and whether it sets `ERANGE`. -/
structure Converted where
  value : UInt64
  converted : Bool
  erange : Bool
  deriving DecidableEq, Repr

/-- `0x` or `0X`. -/
def startsHex (s : WStr) : Bool := (s.take 2).map towlower == [48, 120]

/-- The digits `wcstoul` reads behind white space, sign and `0x`. -/
def numberDigits (base : ℕ) (s : WStr) : WStr :=
  (if base = 16 ∧ startsHex s then s.drop 2 else s).takeWhile (if base = 16 then iswxdigit else iswdigit)

def digitsNumber (base : ℕ) (digits : WStr) : ℕ := digits.foldl (fun n c => base * n + digitValue c) 0

/-- `wcstoul(s, &end, base)` for the bases 10 and 16.  A lone `0x` is the number 0. -/
def wcstoul (base : ℕ) (s : WStr) : Converted :=
  let s := s.dropWhile iswspace
  let unsigned := if s.head? = some 45 ∨ s.head? = some 43 then s.tail else s
  let n := digitsNumber base (numberDigits base unsigned)
  let converted := numberDigits base unsigned ≠ [] ∨ (base = 16 ∧ startsHex unsigned)
  if 18446744073709551616 ≤ n then ⟨0xFFFFFFFFFFFFFFFF, converted, true⟩
  else ⟨if s.head? = some 45 then -UInt64.ofNat n else UInt64.ofNat n, converted, false⟩

/-! ### Memory -/

/-- The string up to its NUL. -/
def cstring (memory : List UInt32) : WStr := memory.takeWhile (· ≠ 0)

def wcscpy (memory : List UInt32) (s : WStr) : List UInt32 := s ++ 0 :: memory.drop (s.length + 1)

/-- `dwNumber = n` -/
def storeNumber (n : UInt64) (memory : List UInt32) : List UInt32 :=
  n.toUInt32 :: (n >>> 32).toUInt32 :: memory.drop 2

def dwNumber (memory : List UInt32) : UInt64 :=
  UInt64.ofNat ((memory.getD 0 0).toNat + 4294967296 * (memory.getD 1 0).toNat)

/-- `if (wCount < (MAX_STRING - 1)) pszString[wCount++] = c` for every character. -/
def storeChars : WStr → ℕ → List UInt32 → ℕ × List UInt32
  | [], wCount, memory => (wCount, memory)
  | c :: chars, wCount, memory =>
    if wCount < MAX_STRING - 1 then storeChars chars (wCount + 1) (memory.set wCount c)
    else storeChars chars wCount memory

/-! ### Characters of the file -/

def GetNextChar : Lex Unit := fun s =>
  match s.m_file with
  | [] => (.ok (), { s with m_pkgChar := 0 })
  | tmp :: rest => (.ok (), { s with m_pkgChar := tmp.toUInt32, m_file := rest })

/-- `if (m_pkgChar == c)` -/
def onChar {α : Type} (c : UInt32) (m m' : Lex α) : Lex α := Run.branch (fun s : Lexer => s.m_pkgChar = c) m m'

/-- `while (p(m_pkgChar)) GetNextChar();` from a character and the units behind it: the characters passed, the
character and the units it ends at. -/
def passWhile (p : UInt32 → Bool) : UInt32 → List UInt16 → WStr × UInt32 × List UInt16
  | c, [] => if p c then ([c], 0, []) else ([], c, [])
  | c, tmp :: rest =>
    if p c then (c :: (passWhile p tmp.toUInt32 rest).1, (passWhile p tmp.toUInt32 rest).2)
    else ([], c, tmp :: rest)

def GetWhile (p : UInt32 → Bool) : Lex WStr := fun s =>
  let passed := passWhile p s.m_pkgChar s.m_file
  (.ok passed.1, { s with m_pkgChar := passed.2.1, m_file := passed.2.2 })

/-! ### Numbers -/

/-- `iswxdigit(tmp_char) || tmp_char == L'x'` -/
def isNumberChar (tmp_char : UInt16) : Bool := iswxdigit tmp_char.toUInt32 || tmp_char == 120

/-- The loop that fills `temp`, with its NUL.  The file pointer is left at the character behind the number. -/
def readTemp : Lex WStr := fun s =>
  let digits := s.m_file.takeWhile isNumberChar
  let s' := { s with m_file := s.m_file.dropWhile isNumberChar }
  if MAX_STRING ≤ digits.length then (.error .outOfBounds, s')
  else if s'.m_file = [] then (.error (.throws .ErrReadFailed), s')
  else if MAX_STRING ≤ digits.length + 1 then (.error .outOfBounds, s')
  else (.ok (s.m_pkgChar :: digits.map UInt16.toUInt32), s')

/-- The number in `temp`. -/
def convertTemp (temp : WStr) : Converted :=
  wcstoul (if startsHex temp || startsHex temp.tail then 16 else 10) (cstring temp)

/-- The end of `GetNumericToken`, from `wcstoul` on. -/
def storeTemp (temp : WStr) : Lex Unit := do
  let number := convertTemp temp
  Run.update fun s => { s with
    m_tokenValue := storeNumber number.value s.m_tokenValue, erange := s.erange || number.erange }
  let erange ← Run.read Lexer.erange
  if !number.converted then Run.stop (.throws .ErrReadFailed)
  else if erange then Run.stop (.throws .ErrNumberOutOfRange)
  else GetNextChar

def GetNumericToken : Lex Unit := do
  let temp ← readTemp
  storeTemp temp

def IsNumericToken : Lex Bool := fun s =>
  let lookAhead := match s.m_file with
    | [] => false
    | tmp :: _ => iswdigit tmp.toUInt32
  (.ok (iswdigit s.m_pkgChar || ((s.m_pkgChar == 43 || s.m_pkgChar == 45) && lookAhead)), s)

/-! ### Strings -/

/-- The character `num` behind the string `temp`. -/
def appendChar (temp : WStr) (num : UInt64) (memory : List UInt32) : List UInt32 :=
  if temp.length + 2 ≤ MAX_STRING then
    ((wcscpy memory temp).set temp.length num.toUInt32).set (temp.length + 1) 0
  else wcscpy memory temp

/-- What `ParseEscapeChars` does with a number in front of `>`; `temp` is the string so far. -/
def storeEscape (temp : WStr) : Lex Bool := do
  let num ← Run.read fun s => dwNumber s.m_tokenValue
  if 0x80 ≤ num && num ≤ 0x9F then Run.stop (.throws .ErrInvalidEscape)
  else do
    Run.update fun s => { s with m_tokenValue := appendChar temp num s.m_tokenValue }
    GetNextChar
    pure true

/-- A turn of `ParseEscapeChars`, and whether it goes on.  The exceptions of the number are caught. -/
def escapeTurn : Lex Bool := fun s =>
  let temp := cstring s.m_tokenValue
  match (GetNextChar >>= fun _ => GetNumericToken) s with
  | (.error (.throws _), s') =>
    (.ok false, { s' with m_tokenValue := wcscpy s'.m_tokenValue temp, m_file := s.m_file })
  | (.error e, s') => (.error e, s')
  | (.ok _, s') =>
    if s'.m_pkgChar = 62 then storeEscape temp s' else (.ok false, { s' with m_file := s.m_file })

/-- The loop of `ParseEscapeChars`, on fuel. -/
def escapeLoop : ℕ → UInt16 → Lex UInt16
  | 0, _ => Run.stop .outOfFuel
  | n + 1, found => onChar 60
    (escapeTurn >>= fun goesOn => if goesOn then escapeLoop n (found + 1) else pure found)
    (pure found)

def ParseEscapeChars : Lex UInt16 := fun s => escapeLoop (s.m_file.length + 1) 0 s

/-- The local variables of `GetStringToken`. -/
structure StringState where
  wCount : ℕ
  done : Bool
  escapeChars : UInt16
  deriving DecidableEq, Repr

/-- A quoted segment, behind its opening mark. -/
def readSegment (t : StringState) : Lex StringState := do
  let chars ← GetWhile fun c => c != 0 && c != 34
  Run.update fun s => { s with m_tokenValue := (storeChars chars t.wCount s.m_tokenValue).2 }
  let c ← Run.read Lexer.m_pkgChar
  if c = 0 then Run.stop (.throws .ErrBadString)
  else do
    GetNextChar
    pure { t with wCount := (storeChars chars t.wCount []).1, done := true }

/-- A quoted segment. -/
def readQuoted (t : StringState) : Lex StringState := do
  GetNextChar
  readSegment t

def countEscapes (t : StringState) (escapeChars : UInt16) : StringState :=
  if escapeChars = 0 then { t with escapeChars := 0 }
  else ⟨min (t.wCount + escapeChars.toNat) (MAX_STRING - 1), true, escapeChars⟩

/-- The escapes behind a segment, at the first `<`. -/
def readEscapes (t : StringState) : Lex StringState := do
  Run.update fun s => { s with m_tokenValue := s.m_tokenValue.set t.wCount 0 }
  let escapeChars ← ParseEscapeChars
  pure (countEscapes t escapeChars)

/-- A turn of the loop of `GetStringToken`. -/
def stringTurn (t : StringState) : Lex StringState := do
  let t ← onChar 34 (readQuoted t) (pure t)
  onChar 60 (readEscapes t) (pure t)

/-- The loop of `GetStringToken`, on fuel. -/
def stringLoop : ℕ → StringState → Lex StringState
  | 0, _ => Run.stop .outOfFuel
  | n + 1, t => do
    let t ← stringTurn t
    if t.escapeChars = 0 then pure t else onChar 34 (stringLoop n t) (pure t)

def GetStringToken : Lex Bool := fun s => (do
  let t ← stringLoop (s.m_file.length + 2) ⟨0, false, 0⟩
  Run.update fun s => { s with m_tokenValue := s.m_tokenValue.set t.wCount 0 }
  pure t.done) s

def GetAlphaNumericToken : Lex Unit := do
  let chars ← GetWhile fun c => c == 95 || iswalnum c
  Run.update fun s => { s with m_tokenValue :=
    (storeChars chars 0 s.m_tokenValue).2.set (storeChars chars 0 []).1 0 }

end GnuPoc.Pkg
