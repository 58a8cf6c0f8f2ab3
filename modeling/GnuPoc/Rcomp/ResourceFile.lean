import GnuPoc.Rcomp.Expand

/-!
# GnuPoc.Rcomp.ResourceFile — ids and the resource file (`rcomp.y`, `main.cpp`, `indextab.cpp`, `linkarra.cpp`)

A resource has its items as the calls that they make when they are streamed out, where a link names a
resource.  The parser gives the ids; `WriteResourceFile` writes the resources and the index, goes back to the
header, and overwrites the links.
-/

namespace GnuPoc.Rcomp

open GnuPoc.Lib

/-- What a resource item does with the stream; `WordLink` and `LongLink` stand for LINK and LLINK items. -/
inductive Item
  | StreamIn (bytes : Bytes)
  | MakePlaceHolder (aNumberOfBytes : ℕ)
  | StartOfBlockWithSizePrefix (type : DataType)
  | EndOfBlockWithSizePrefix
  | StreamOutCompressingIfReducesSize (words : List UInt16)
  | WordLink (aResourceName : String)
  | LongLink (aResourceName : String)
  deriving DecidableEq

structure ResourceHeader where
  iLabel : String
  iLocal : Bool
  iRIA : List Item
  iResourceId : UInt64
  iFormatAsHex : Bool
  iContainsCompressedUnicode : Bool
  deriving DecidableEq

/-- `IndexTableItem`; the two bytes of `iOffset` are the number in them. -/
structure IndexTableItem where
  iResource : ResourceHeader
  iOffset : ℕ
  deriving DecidableEq

/-! ### Ids -/

/-- A RESOURCE statement. -/
structure Statement where
  label : String
  isLocal : Bool
  items : List Item
  deriving DecidableEq

/-- The globals that a NAME, an OFFSET or a SYSTEM statement sets. -/
structure Setting where
  CurrentId : UInt64
  CurrentIdStep : UInt64
  FormatIdAsHex : Bool

/-- `CurrentId`, `pResourceNameIds` and `pG->Index`. -/
structure GlobalData where
  CurrentId : UInt64
  ResourceNameIds : List (String × UInt64)
  Index : List IndexTableItem
  deriving DecidableEq

/-- `SetIdFromName`, for a name that is not too long. -/
def SetIdFromName (name : List Char) : UInt64 :=
  name.foldl (fun id c =>
    let id := id * 27
    if c.isAlpha then id + UInt64.ofNat (c.toUpper.toNat - 'A'.toNat + 1) else id) 0 <<< 12

def IsStored (names : List (String × UInt64)) (name : String) : Bool := names.any fun entry => entry.1 == name

/-- `FindId`: the first entry; without one the program ends. -/
def FindId (names : List (String × UInt64)) (name : String) : Option UInt64 :=
  (names.find? fun entry => entry.1 == name).map Prod.snd

/-- `resource_statement`: a name that is stored already ends the program. -/
def resource_statement (setting : Setting) (g : GlobalData) (statement : Statement) : Run GlobalData :=
  if statement.label ≠ "" ∧ IsStored g.ResourceNameIds statement.label then .error (.exits 1)
  else
    let id := g.CurrentId + setting.CurrentIdStep
    .ok { CurrentId := id
          ResourceNameIds := g.ResourceNameIds ++ if statement.label = "" then [] else [(statement.label, id)]
          Index := g.Index ++ [⟨⟨statement.label, statement.isLocal, statement.items, id, setting.FormatIdAsHex,
            false⟩, 0⟩] }

def parse (setting : Setting) (statements : List Statement) : Run GlobalData :=
  statements.foldlM (resource_statement setting) ⟨setting.CurrentId, [], []⟩

/-! ### The header file -/

/-- `%-41s`. -/
def padRight (n : ℕ) (s : String) : String := s ++ String.ofList (List.replicate (n - s.length) ' ')

/-- `%lx` and `%ld`. -/
def formatId (hex : Bool) (id : UInt64) : String :=
  if hex then "0x" ++ String.ofList (Nat.toDigits 16 id.toNat) else toString id.toInt64.toInt

/-- The line of a resource: the label in capitals and the id. -/
def headerLine (label : String) (hex : Bool) (id : UInt64) : String :=
  "#define " ++ padRight 41 (label.map Char.toUpper) ++ " " ++ formatId hex id ++ "\n"

def WriteHeaderFile (aIndex : List IndexTableItem) : List String :=
  (aIndex.filter fun p => 0 < p.iResource.iLabel.length && !p.iResource.iLocal).map fun p =>
    headerLine p.iResource.iLabel p.iResource.iFormatAsHex p.iResource.iResourceId

/-! ### Streaming a resource out -/

/-- `LinkItem`. -/
structure LinkItem where
  iResourceName : String
  type : DataType
  iStreamPosition : ℕ
  deriving DecidableEq

/-- The calls of items, with the links numbered. -/
def numbered : ℕ → List Item → List Call
  | _, [] => []
  | k, .StreamIn bytes :: items => .StreamIn bytes :: numbered k items
  | k, .MakePlaceHolder n :: items => .MakePlaceHolder n :: numbered k items
  | k, .StartOfBlockWithSizePrefix type :: items => .StartOfBlockWithSizePrefix type :: numbered k items
  | k, .EndOfBlockWithSizePrefix :: items => .EndOfBlockWithSizePrefix :: numbered k items
  | k, .StreamOutCompressingIfReducesSize words :: items =>
    .StreamOutCompressingIfReducesSize words :: numbered k items
  | k, .WordLink _ :: items => .link k .L_WORD :: numbered (k + 1) items
  | k, .LongLink _ :: items => .link k .L_LONG :: numbered (k + 1) items

/-- The links that items add to `pLinks`. -/
def Item.link? : Item → Option (String × DataType)
  | .WordLink name => some (name, .L_WORD)
  | .LongLink name => some (name, .L_LONG)
  | _ => none

def linksOf (items : List Item) : List (String × DataType) := items.filterMap Item.link?

/-- The links of a resource with the positions that the stream has set; `0xeebbeebb` is what the constructor
puts there. -/
def linkItems (links : List (String × DataType)) (positions : List (ℕ × ℕ)) : List LinkItem :=
  links.mapIdx fun k link => ⟨link.1, link.2, (positions.lookup k).getD 0xeebbeebb⟩

/-- The stream, the index as far as it is done, `pLinks` and `aSizeOfLargestResourceWhenUncompressed`. -/
structure Progress where
  aRSC : RCBinaryStream
  aIndex : List IndexTableItem
  links : List LinkItem
  aSizeOfLargestResourceWhenUncompressed : ℕ

/-- `ResourceHeader::StreamOut`, with fuel for the marks of the stream. -/
def StreamOut (compress : List UInt16 → Bytes) (symbianV6hack : Bool) (r : ResourceHeader) (aStream : RCBinaryStream) :
    Run StreamedOut :=
  let stream := ResourceDataStream.collect compress (numbered 0 r.iRIA)
  StreamOutReturningWhetherContainsCompressedUnicode symbianV6hack false (stream.iArrayOfMarks.length + 1) stream
    aStream

/-- `SetOffset` and `SetIndexOffset`. -/
def checkOffset (aOffsetToSet : ℕ) : Run Unit :=
  if aOffsetToSet ≤ 0xFFFF then .ok () else .error (.offset aOffsetToSet)

/-- A round of `WriteBinaryResourceData`. -/
def writeResource (compress : List UInt16 → Bytes) (symbianV6hack : Bool) (st : Progress) (p : IndexTableItem) :
    Run Progress := do
  checkOffset st.aRSC.GetPosition
  let out ← StreamOut compress symbianV6hack p.iResource st.aRSC
  .ok { aRSC := out.aStream
        aIndex := st.aIndex ++ [⟨{ p.iResource with
          iContainsCompressedUnicode := out.containsCompressedUnicode }, st.aRSC.GetPosition⟩]
        links := st.links ++ linkItems (linksOf p.iResource.iRIA) out.positions
        aSizeOfLargestResourceWhenUncompressed :=
          max st.aSizeOfLargestResourceWhenUncompressed out.aSizeWhenUncompressed }

def WriteBinaryResourceData (compress : List UInt16 → Bytes) (symbianV6hack : Bool) (aRSC : RCBinaryStream)
    (aIndex : List IndexTableItem) : Run Progress :=
  aIndex.foldlM (writeResource compress symbianV6hack) ⟨aRSC, [], [], 0⟩

/-! ### The resource file -/

def L_WORD (n : ℕ) : Bytes := (⟨.L_WORD, n⟩ : NumericValue).iData

/-- `WriteBitArrayOfResourcesContainingCompressedUnicode`: the bytes, from `bitBuffer` and
`numberOfBitsInBuffer` on. -/
def bitArray : UInt8 → ℕ → List Bool → Bytes
  | bitBuffer, numberOfBitsInBuffer, [] => if 0 < numberOfBitsInBuffer then [bitBuffer] else []
  | bitBuffer, numberOfBitsInBuffer, bit :: bits =>
    let bitBuffer := if bit then bitBuffer ||| 1 <<< UInt8.ofNat numberOfBitsInBuffer else bitBuffer
    if numberOfBitsInBuffer + 1 = 8 then bitBuffer :: bitArray 0 0 bits
    else bitArray bitBuffer (numberOfBitsInBuffer + 1) bits

def bitArrayOf (aIndex : List IndexTableItem) : Bytes :=
  bitArray 0 0 (aIndex.map fun p => p.iResource.iContainsCompressedUnicode)

/-- `aRSC << aIndex`: nothing for an empty table. -/
def indexBytes (aIndex : List IndexTableItem) (iOffset : ℕ) : Bytes :=
  if aIndex = [] then [] else (aIndex.flatMap fun p => L_WORD p.iOffset) ++ L_WORD iOffset

/-- `OverwriteLink`. -/
def OverwriteLink (names : List (String × UInt64)) (os : RCBinaryStream) (link : LinkItem) : Run RCBinaryStream :=
  match FindId names link.iResourceName with
  | none => .error (.exits 1)
  | some id => .ok ((os.SetPosition link.iStreamPosition).Write (⟨link.type, id.toNat⟩ : NumericValue).iData)

/-- The space for the header, in front of the resources. -/
def makeSpace (symbianV6hack : Bool) (aRSC : RCBinaryStream) (aIndex : List IndexTableItem) : RCBinaryStream :=
  if symbianV6hack then aRSC.Write [0, 0, 0, 0] else (aRSC.Write (L_WORD 0)).Write (bitArrayOf aIndex)

/-- The header, when all is known. -/
def headerBytes (symbianV6hack : Bool) (st : Progress) (offs endPos : ℕ) : Bytes :=
  if symbianV6hack then L_WORD offs ++ L_WORD (1 + endPos - offs)
  else L_WORD st.aSizeOfLargestResourceWhenUncompressed ++ bitArrayOf st.aIndex

def flagBytes (symbianV6hack aThirdUidIsOffset : Bool) : Bytes :=
  if symbianV6hack then [] else [if aThirdUidIsOffset then 1 else 0]

/-- The stream and the index that `WriteResourceFile` leaves. -/
def WriteResourceFile (compress : List UInt16 → Bytes) (symbianV6hack aThirdUidIsOffset : Bool)
    (aRSC : RCBinaryStream) (g : GlobalData) : Run (RCBinaryStream × List IndexTableItem) := do
  let os := aRSC.Write (flagBytes symbianV6hack aThirdUidIsOffset)
  let positionToOverWriteFrom := os.GetPosition
  let st ← WriteBinaryResourceData compress symbianV6hack (makeSpace symbianV6hack os g.Index) g.Index
  let offs := st.aRSC.GetPosition
  checkOffset offs
  let os := st.aRSC.Write (indexBytes st.aIndex offs)
  let endPos := os.GetPosition
  let os := (os.SetPosition positionToOverWriteFrom).Write (headerBytes symbianV6hack st offs endPos)
  let os ← st.links.foldlM (OverwriteLink g.ResourceNameIds) os
  .ok (os, st.aIndex)

end GnuPoc.Rcomp
