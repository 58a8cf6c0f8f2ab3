import GnuPoc.Rcomp.ResourceItem
import GnuPoc.Rcomp.StringExport

/-!
# GnuPoc.Rcomp.SourceText — the statements of a source text (`rcomp.y`, `structst.cpp`)

The actions of the grammar, statement after statement.  A STRUCT statement declares members, of which the length of a
default is checked where a limit stands in front of it; a RESOURCE statement makes the items of a resource.  An
initialiser is the text that the grammar makes of it, where the name of an enumerator has become a number.
-/

namespace GnuPoc.Rcomp

open GnuPoc.Lib

/-! ### Members -/

/-- `struct_item`.  The limit of a simple one stands in `<>` in front of the label or in `()` behind it. -/
inductive MemberText
  | simple (type : ItemType) (front : Option String) (label : String) (limit default : Option String)
  | array (iLenType : Option DataType) (type : ItemType) (label : String) (size : Option String)
    (defaults : Option (List String))
  | structType (label : String)
  | structArray (iLenType : Option DataType) (label : String)

/-- `simple_struct_item`. -/
def simple_struct_item (conv : Conversions) (item : SimpleStructItem) :
    Option String → Option String → Run SimpleStructItem
  | none, none => .ok item
  | some limit, none => .ok { item with iLengthLimit := limit }
  | none, some default => .ok { item with iDefault := default }
  | some limit, some default => do
    let Limit ← ConvertToNatural limit
    if Limit.iULongValue.toNat < conv.ExportLength default then .error (.exits 1)
    else .ok { item with
      iLengthLimit := limit
      iDefault := default }

/-- `array_struct_item`. -/
def array_struct_item (item : ArrayStructItem) : Option (List String) → Run ArrayStructItem
  | none => .ok item
  | some defaults =>
    if 0 < item.iSize.length then do
      let v ← ConvertToNatural item.iSize
      if (defaults.length : ℤ) ≠ v.iULongValue.toInt64.toInt then .error (.exits 1)
      else .ok { item with iDefaults := defaults }
    else .ok { item with iDefaults := defaults }

def MemberText.parse (conv : Conversions) : MemberText → Run StructItem
  | .simple type front label limit default => do
    let item ← simple_struct_item conv ⟨label, type, SimpleStructItem.default type, front.getD ""⟩ limit default
    .ok (.simple item)
  | .array iLenType type label size defaults => do
    let item ← array_struct_item ⟨label, type, size.getD "", [], iLenType⟩ defaults
    .ok (.array item)
  | .structType label => .ok (.structType ⟨label⟩)
  | .structArray iLenType label => .ok (.structArray ⟨label, iLenType⟩)

/-- `struct_item_list`. -/
def struct_item_list (conv : Conversions) (pSH : StructHeader) (member : MemberText) : Run StructHeader := do
  let pNewItem ← member.parse conv
  pSH.Add pNewItem

/-! ### Statements -/

inductive TextStatement
  | struct_statement (label : String) (iLenType : Option DataType) (members : List MemberText)
  | resource_statement (structName label : String) (isLocal : Bool) (body : List BodyItem)
  | character_set_statement (name : String)
  | name_statement (name : String)
  | offset_statement (value : String)
  | system_statement

/-- A `ResourceHeader` as the grammar leaves it. -/
structure ParsedResource where
  iLabel : String
  iLocal : Bool
  iRIA : ResourceItemArray
  iResourceId : UInt64
  iFormatAsHex : Bool

/-- `pG` and the globals that the statements set. -/
structure ParsedText where
  SHA : List StructHeader
  ResourceNameIds : List (String × UInt64)
  Index : List ParsedResource
  SourceCharacterSet : CharacterSet
  CurrentId : UInt64
  CurrentIdStep : UInt64
  FormatIdAsHex : Bool

/-- In front of the first statement. -/
def ParsedText.start : ParsedText where
  SHA := []
  ResourceNameIds := []
  Index := []
  SourceCharacterSet := .CP1252
  CurrentId := 0
  CurrentIdStep := 1
  FormatIdAsHex := false

def CharacterSetID (character_set_name : String) : CharacterSet :=
  (([("ISOLATIN1", .ISOLatin1), ("ASCII", .ASCII), ("CP1252", .CP1252), ("CP850", .CP850), ("SHIFTJIS", .ShiftJIS),
    ("UNICODE", .Unicode), ("UTF8", .UTF8)] : List (String × CharacterSet)).lookup character_set_name).getD .UNKNOWN

section
variable (conversions : CharacterSet → Conversions) (memory : ℕ → ℕ → UInt64)

/-- A statement; `conversions` are those of each source character set, and `memory` is that of the items of each
resource. -/
def ParsedText.statement (g : ParsedText) : TextStatement → Run ParsedText
  | .struct_statement label iLenType members =>
    if g.SHA.any fun p => p.iLabel == label then .error (.exits 1)
    else do
      let pSH ← members.foldlM (struct_item_list (conversions g.SourceCharacterSet))
        ⟨label, [], iLenType, List.nodup_nil⟩
      .ok { g with SHA := g.SHA ++ [pSH] }
  | .resource_statement structName label isLocal body =>
    if label ≠ "" ∧ IsStored g.ResourceNameIds label then .error (.exits 1)
    else do
      let iRIA ← resourceItems (conversions g.SourceCharacterSet) g.SHA (memory g.Index.length) structName body
      let id := g.CurrentId + g.CurrentIdStep
      .ok { g with
        CurrentId := id
        ResourceNameIds := g.ResourceNameIds ++ if label = "" then [] else [(label, id)]
        Index := g.Index ++ [⟨label, isLocal, SetResourceId id iRIA, id, g.FormatIdAsHex⟩] }
  | .character_set_statement name =>
    .ok { g with
      SourceCharacterSet := if CharacterSetID name = .Unicode then .UNKNOWN else CharacterSetID name }
  | .name_statement name =>
    if 4 < name.length then .error (.exits 1)
    else .ok { g with
      CurrentId := SetIdFromName name.toList
      FormatIdAsHex := true }
  | .offset_statement value => do
    let v ← ConvertToNatural value
    .ok { g with CurrentId := v.iULongValue }
  | .system_statement => .ok { g with CurrentIdStep := -1 }

/-- `source`. -/
def parseText (text : List TextStatement) : Run ParsedText :=
  text.foldlM (ParsedText.statement conversions memory) .start

end

end GnuPoc.Rcomp
