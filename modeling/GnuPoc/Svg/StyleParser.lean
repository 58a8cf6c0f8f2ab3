import GnuPoc.Lib.Output
import GnuPoc.Svg.Encode
import GnuPoc.Svg.StyleTokens

/-!
# GnuPoc.Svg.StyleParser — the attributes of an element, with its style (`encode.cpp`)

A style is a text of declarations, and each of them is written as an attribute.  One that is named `style` again gives
the scanner another text, but not another buffer: what the buffer still holds of the outer text comes first.
-/

namespace GnuPoc.Svg.Style

open GnuPoc.Lib
open GnuPoc.Svg.Encode (WriteFunc findAttribute findElementId)

/-- How a call ends that does not return. -/
inductive Stop
  | throws (err : SvgbError)
  | undefined
  | outOfFuel
  deriving DecidableEq

abbrev Call := Output UInt8 Stop

/-- Of `curStringToken`, `styleAttribute` and `styleValue`. -/
def tokenSize : ℕ := 200

/-- A string is copied to `curStringToken`, with the zero behind it. -/
def stylelex (s : Scanner) : Call (Token × Scanner) :=
  match nextToken s with
  | (.string styletext, s) =>
    if styletext.length < tokenSize then return (.string styletext, s) else .stop .undefined
  | (token, s) => return (token, s)

/-- The name of an attribute or an element, for the tables. -/
def chars (name : Bytes) : String := String.ofList (name.map fun c => Char.ofNat c.toNat)

section

-- what the functions of the table do with the text of a value
variable (write : WriteFunc → Bytes → Call Unit)

def writeAttribute (parseStyle : Bytes → Scanner → Call Scanner) (name value element : Bytes) (s : Scanner) :
    Call Scanner :=
  if chars name = "style" then parseStyle value s
  else match findAttribute (chars name) (chars element) with
    | some entry => do
      .emit (writeUint16 entry.id)
      write entry.func value
      return s
    | none => return s

/-- The value that a token behind the colon stands for. -/
def styleValue : Token → Call Bytes
  | .eof => return []
  | .char c => if c = semicolon then return [] else .stop (.throws .ErrBadStyleAttribute)
  | .string styletext => return styletext

/-- The end of a round, behind the token of the value, and the rounds behind it. -/
def afterValue (loop : Scanner → Call Scanner) (token : Token) (s : Scanner) : Call Scanner :=
  if token = .char semicolon then loop s else do
    let (token, s) ← stylelex s
    match token with
    | .eof => return s
    | token => if token = .char semicolon then loop s else .stop (.throws .ErrBadStyleAttribute)

/-- A round from the colon on. -/
def afterColon (loop : Scanner → Call Scanner) (styleAttribute element : Bytes) (s : Scanner) : Call Scanner := do
  let (token, s) ← stylelex s
  let value ← styleValue token
  let s ← writeAttribute write (fun value s => loop (initStyleTokenizer value s)) styleAttribute value element s
  afterValue loop token s

/-- The loop of `parseStyle`. -/
def styleLoop (element : Bytes) : ℕ → Scanner → Call Scanner
  | 0, _ => .stop .outOfFuel
  | fuel + 1, s => do
    let (token, s) ← stylelex s
    match token with
    | .eof => return s
    | .char _ => .stop (.throws .ErrBadStyleAttribute)
    | .string styleAttribute => do
      let (token, s) ← stylelex s
      if token = .char colon then afterColon write (styleLoop element fuel) styleAttribute element s
      else .stop (.throws .ErrBadStyleAttribute)

/-- A round of the loop takes one byte at least, and a style in it gives no more than its own value back. -/
def parseStyle (value element : Bytes) (s : Scanner) : Call Scanner :=
  let s := initStyleTokenizer value s
  styleLoop write element (s.left + 1) s

def writeAttributes (element : Bytes) : List (Bytes × Bytes) → Scanner → Call Scanner
  | [], s => return s
  | (name, value) :: attrs, s => do
    let s ← writeAttribute write (fun value s => parseStyle write value element s) name value element s
    writeAttributes element attrs s

def startTag (name : Bytes) (attrs : List (Bytes × Bytes)) (s : Scanner) : Call Scanner :=
  match findElementId (chars name) with
  | .error err => .stop (.throws err)
  | .ok id => do
    .emit (writeUint8 id)
    let s ← writeAttributes write name attrs s
    .emit (writeUint16 END_ATTRIBUTES)
    return s

end

/-! ### How calls end -/

/-- A call that returns or throws. -/
def Defined {α : Type} (x : Call α) : Prop := ∀ e, x.ends = .error e → ∃ err, e = .throws err

/-- Two calls that write the same bytes. -/
structure SameBytes {α : Type} (x y : Call α) : Prop where
  written : x.written = y.written
  left : Defined x
  right : Defined y

end GnuPoc.Svg.Style
