import GnuPoc.Lib.LittleEndian

/-!
# GnuPoc.Svg.Encode — the tables of the encoder (`encode.cpp`, `write.cpp`)

The elements and the attributes that have a number.  An attribute that is not in the table is skipped, and an entry may
be for one element only.
-/

namespace GnuPoc.Svg

open GnuPoc.Lib

/-- The errors of the encoder that a document can bring about. -/
inductive SvgbError
  | ErrUnknownElement
  | ErrUnimplemented
  | ErrBadAttribute
  | ErrBadUTF8
  | ErrBadPathCommands
  | ErrBadStyleAttribute
  deriving DecidableEq

def writeUint8 (value : ℕ) : Bytes := leBytes 1 value

def writeUint16 (value : ℕ) : Bytes := leBytes 2 value

/-! ### Tables -/

def END_ATTRIBUTES : ℕ := 0x03e8

namespace Encode

def elementNames : List (String × ℕ) :=
  [("svg", 0x00), ("defs", 0x03), ("path", 0x1e), ("a", 0x12), ("animate", 0x22), ("animateColor", 0x23),
    ("animateMotion", 0x24), ("animateTransform", 0x25), ("set", 0x26), ("mpath", 0x27), ("circle", 0x1b),
    ("desc", 0x04), ("ellipse", 0x1c), ("g", 0x0b), ("title", 0x07), ("use", 0x1a), ("font-face", 0x14),
    ("font-face-name", 0x08), ("font-face-src", 0x09), ("glyph", 0x15), ("image", 0x16), ("line", 0x1d),
    ("missing-glyph", 0x17), ("polygon", 0x1f), ("polyline", 0x20), ("rect", 0x21), ("switch", 0x0f),
    ("text", 0x19), ("linearGradient", 0x28), ("stop", 0x2a), ("radialGradient", 0x29)]

def findElementId (name : String) : Except SvgbError ℕ :=
  match elementNames.find? fun entry => entry.1 = name with
  | some entry => .ok entry.2
  | none => .error .ErrUnknownElement

inductive WriteFunc
  | writeFixed | writePercentLength | writeViewBox | writeString | writeColor | writeFill | writePathCommands
  | writePreserveAspectRatio | writeZoomAndPan | writeGradientUnits | writeSpreadMethod | writeNull
  deriving DecidableEq

structure Attribute where
  name : String
  id : ℕ
  func : WriteFunc
  element : Option String
  deriving DecidableEq

def attributes : List Attribute :=
  [⟨"version", 0x004c, .writeFixed, none⟩,
    ⟨"x", 0x0031, .writeFixed, none⟩,
    ⟨"y", 0x0030, .writeFixed, none⟩,
    ⟨"x1", 0x0034, .writeFixed, none⟩,
    ⟨"y1", 0x0032, .writeFixed, none⟩,
    ⟨"x2", 0x0035, .writeFixed, none⟩,
    ⟨"y2", 0x0033, .writeFixed, none⟩,
    ⟨"gradientUnits", 0x0056, .writeGradientUnits, none⟩,
    ⟨"gradientTransform", 0x007b, .writeNull, none⟩,
    ⟨"spreadMethod", 0x0055, .writeSpreadMethod, none⟩,
    ⟨"xlink:href", 0x006d, .writeNull, none⟩,
    ⟨"offset", 0x0054, .writeFixed, none⟩,
    ⟨"stop-color", 0x0051, .writeColor, none⟩,
    ⟨"stop-opacity", 0x0057, .writeFixed, none⟩,
    ⟨"width", 0x001a, .writePercentLength, some "svg"⟩,
    ⟨"height", 0x001b, .writePercentLength, some "svg"⟩,
    ⟨"width", 0x001a, .writeFixed, none⟩,
    ⟨"height", 0x001b, .writeFixed, none⟩,
    ⟨"rx", 0x001d, .writeFixed, none⟩,
    ⟨"ry", 0x001e, .writeFixed, none⟩,
    ⟨"viewBox", 0x0058, .writeViewBox, none⟩,
    ⟨"preserveAspectRatio", 0x005b, .writePreserveAspectRatio, none⟩,
    ⟨"zoomAndPan", 0x005a, .writeZoomAndPan, none⟩,
    ⟨"baseProfile", 0x0059, .writeString, none⟩,
    ⟨"id", 0x005c, .writeString, none⟩,
    ⟨"fill", 0x0000, .writeFill, none⟩,
    ⟨"fill-opacity", 0x0016, .writeFixed, none⟩,
    ⟨"color", 0x000f, .writeColor, none⟩,
    ⟨"d", 0x004f, .writePathCommands, none⟩,
    ⟨"transform", 0x0042, .writeNull, none⟩,
    ⟨"xml:base", 0x005d, .writeString, none⟩,
    ⟨"xml:lang", 0x005e, .writeString, none⟩,
    ⟨"xml:space", 0x005f, .writeString, none⟩,
    ⟨"requiredFeatures", 0x0061, .writeString, none⟩,
    ⟨"requiredExtensions", 0x0060, .writeString, none⟩,
    ⟨"systemLanguage", 0x0062, .writeString, none⟩,
    ⟨"fill-rule", 0x000a, .writeString, none⟩,
    ⟨"stroke", 0x0001, .writeColor, none⟩,
    ⟨"stroke-dasharray", 0x0008, .writeNull, none⟩,
    ⟨"stroke-dashoffset", 0x000d, .writeNull, none⟩,
    ⟨"stroke-linecap", 0x000b, .writeString, none⟩,
    ⟨"stroke-miterlimit", 0x000e, .writeNull, none⟩,
    ⟨"stroke-width", 0x0002, .writeFixed, none⟩]

/-- An entry for one element only does not apply to the others. -/
def Attribute.applies (entry : Attribute) (element : String) : Bool :=
  match entry.element with
  | some name => name = element
  | none => true

def findAttribute (name element : String) : Option Attribute :=
  attributes.find? fun entry => entry.name = name && entry.applies element

end Encode

end GnuPoc.Svg
