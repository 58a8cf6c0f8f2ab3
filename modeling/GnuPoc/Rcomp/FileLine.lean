import GnuPoc.Lib.Outcome
import GnuPoc.Lib.Stdio

/-!
# GnuPoc.Rcomp.FileLine — the lines of the preprocessed source (`fileline.cpp`, `rcomp.l`)

The scanner counts the lines of what the preprocessor has written; `FileLineManager` turns its count into a line of
the file that the last marker `# <line> "<file>"` names.  The scanner is followed through its start conditions,
since a marker in a string or a comment is none.
-/

namespace GnuPoc.Rcomp

open GnuPoc.Lib

/-! ### `FileLineManager` -/

namespace FileLine

def PATH_MAX : ℕ := 4096

structure FileLineManager where
  iBaseFileName : Bytes
  iCurrentFileName : Bytes
  iOffsetLineNumber : Int32
  deriving DecidableEq

namespace FileLineManager

/-- The manager as it is constructed. -/
def fresh : FileLineManager := ⟨[], [], 0⟩

def SetBase (m : FileLineManager) (aFileName : Bytes) (aLineNumber : Int32) : FileLineManager :=
  { m with iBaseFileName := aFileName, iCurrentFileName := aFileName, iOffsetLineNumber := aLineNumber }

/-- The slashes of a name turned round. -/
def dosName (name : Bytes) : Bytes := name.map fun c => if c = 47 then 92 else c

/-- `Text` comes as a `char*`. -/
def ExtractFileName (m : FileLineManager) (Text : Bytes) : Bytes :=
  let buffer := ((readCString Text).take PATH_MAX).takeWhile (· ≠ 34)
  dosName (if buffer = [] then m.iBaseFileName.take PATH_MAX else buffer)

def SetInclude (m : FileLineManager) (aNameText : Bytes) (aLineNumber : Int32) : FileLineManager :=
  { m with iCurrentFileName := m.ExtractFileName aNameText, iOffsetLineNumber := aLineNumber }

def atoi (s : Bytes) : Int32 := ((scanInt s).map Prod.fst).getD 0

def PostInclude (m : FileLineManager) (aNameText aRealLineNumber : Bytes) (aLineNumber : Int32) : FileLineManager :=
  { m with iCurrentFileName := m.ExtractFileName aNameText, iOffsetLineNumber := aLineNumber - atoi aRealLineNumber + 1 }

def GetErrorLine (m : FileLineManager) (aCurrentLineNumber : Int32) : Int32 := aCurrentLineNumber - m.iOffsetLineNumber

def GetCurrentFile (m : FileLineManager) : Bytes := m.iCurrentFileName

end FileLineManager

/-! ### The scanner -/

/-- The start conditions. -/
inductive Cond
  | initial
  | stringRules (isCharLiteral : Bool)
  | fileLineRules
  | cppComment
  | cComment
  deriving DecidableEq

structure Scan where
  cond : Cond
  atBol : Bool
  yylineno : Int32
  RealLineNumber : Bytes
  handler : FileLineManager
  deriving DecidableEq

def Scan.start : Scan := ⟨.initial, true, 1, [], .fresh⟩

/-- The size of `RealLineNumber`. -/
def REALLINENUMBER : ℕ := 200

/-- `^[#][ ]{Digit}+[ ]\"`: the digits. -/
def markerStart : Bytes → Option Bytes
  | 35 :: 32 :: t =>
    if t.takeWhile isdigit ≠ [] ∧ [32, 34].isPrefixOf (t.dropWhile isdigit) then some (t.takeWhile isdigit) else none
  | _ => none

/-- What stands behind the name of a marker. -/
inductive Flag
  | none
  | enter
  | leave
  deriving DecidableEq

/-- The ends of the four rules, each in front of the end of the line. -/
def flagTexts : List (Flag × Bytes) :=
  [(.none, []), (.enter, [32, 49]), (.enter, [32, 49, 32, 51]), (.leave, [32, 50]), (.leave, [32, 50, 32, 51])]

/-- The name, the flag and its text where one of the four rules matches. -/
def markerEnd (input : Bytes) : Option (Bytes × Flag × Bytes) :=
  let tail := input.dropWhile (· ≠ 34)
  if tail = [] then none
  else (flagTexts.find? fun f => (f.2 ++ [10]).isPrefixOf tail.tail).map fun f => (input.takeWhile (· ≠ 34), f)

/-- The other rules: how much is matched, and the start condition behind it.  Tokens are taken byte by byte. -/
def otherRule : Cond → Bytes → ℕ × Cond
  | .initial, 34 :: _ => (1, .stringRules false)
  | .initial, 39 :: _ => (1, .stringRules true)
  | .initial, 47 :: 47 :: _ => (2, .cppComment)
  | .initial, 47 :: 42 :: _ => (2, .cComment)
  | .initial, _ => (1, .initial)
  | .stringRules q, 92 :: c :: _ =>
    if c ∈ ([34, 39, 92, 10, 114, 98, 102, 110, 116, 118] : Bytes) then (2, .stringRules q) else (1, .stringRules q)
  | .stringRules _, 10 :: _ => (1, .initial)
  | .stringRules q, 34 :: _ => (1, if q then .stringRules q else .initial)
  | .stringRules q, 39 :: _ => (1, if q then .initial else .stringRules q)
  | .stringRules q, _ => (1, .stringRules q)
  | .fileLineRules, 47 :: 47 :: _ => (2, .cppComment)
  | .fileLineRules, 47 :: 42 :: _ => (2, .cComment)
  | .fileLineRules, _ => (1, .fileLineRules)
  | .cppComment, 10 :: _ => (1, .initial)
  | .cppComment, _ => (1, .cppComment)
  | .cComment, 42 :: 47 :: _ => (2, .initial)
  | .cComment, _ => (1, .cComment)

/-- `n` bytes are matched, and their lines counted. -/
def matched (n : ℕ) (cond : Cond) (input : Bytes) (s : Scan) : Bytes × Scan :=
  (input.drop n, { s with
    cond := cond
    atBol := decide ((input.take n).getLast? = some 10)
    yylineno := s.yylineno + Int32.ofNat ((input.take n).count 10) })

/-- The actions of `file_line_rules`.  In all of these rules but the first, the end of the line, which is only looked
at, is counted as well. -/
def markerAction (InputBaseName : Bytes) (name : Bytes) (flag : Flag) (text : Bytes) (s : Scan) : Scan :=
  if flag = .none ∧ name = [] then { s with handler := s.handler.SetBase InputBaseName s.yylineno }
  else
    let yylineno := s.yylineno + 1
    let yytext := name ++ 34 :: text
    let handler :=
      if flag = .leave then s.handler.PostInclude yytext s.RealLineNumber yylineno
      else s.handler.SetInclude yytext yylineno
    { s with yylineno := yylineno, handler := handler }

/-- The start of a marker, where the scanner looks for one. -/
def startsMarker (input : Bytes) (s : Scan) : Option Bytes :=
  if s.cond = .initial ∧ s.atBol = true then markerStart input else none

/-- The end of a marker, where the scanner looks for one. -/
def endsMarker (input : Bytes) (s : Scan) : Option (Bytes × Flag × Bytes) :=
  if s.cond = .fileLineRules then markerEnd input else none

/-- One match. -/
def lexStep (InputBaseName : Bytes) (input : Bytes) (s : Scan) : Outcome (Bytes × Scan) :=
  match startsMarker input s with
  | some digits =>
    -- `strcpy` of the digits, a space, a quote and the NUL
    if REALLINENUMBER < digits.length + 3 then .error .undefined
    else
      let (rest, s) := matched (digits.length + 4) .fileLineRules input s
      .ok (rest, { s with RealLineNumber := digits ++ [32, 34] })
  | none =>
    match endsMarker input s with
    | some (name, flag, text) =>
      let (rest, s) := matched (name.length + 1 + text.length) .initial input s
      .ok (rest, markerAction InputBaseName name flag text s)
    | none => .ok (matched (otherRule s.cond input).1 (otherRule s.cond input).2 input s)

end FileLine

end GnuPoc.Rcomp
