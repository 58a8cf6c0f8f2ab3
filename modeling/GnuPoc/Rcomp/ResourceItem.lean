import GnuPoc.Rcomp.ResourceFile
import Mathlib.Data.List.Forall2
import Mathlib.Data.List.Nodup

/-!
# GnuPoc.Rcomp.ResourceItem — the members of a resource (`structst.cpp`, `resource.cpp`, `rcostrm.cpp`)

A STRUCT statement declares the members, a RESOURCE statement makes an item for each and gives values to some;
the defaults and the id of the resource are filled in, and the items are streamed out.  An `unsigned long` has
64 bits.  A character of a string is a byte of the source; the conversion of 16-bit text and `atof` are
parameters, and so is what the memory of a new item holds.
-/

namespace GnuPoc.Rcomp

open GnuPoc.Lib

/-- The types of a member; the grammar replaces `BUF`, `TEXT` and `LTEXT` by one of the two widths. -/
inductive ItemType
  | L_BYTE | L_WORD | L_LONG | L_DOUBLE
  | L_TEXT8 | L_LTEXT8 | L_BUF8 | L_TEXT16 | L_LTEXT16 | L_BUF16
  | L_LINK | L_LLINK | L_SRLINK
  deriving DecidableEq, Repr

/-- `RCTypeArray::GetSize`. -/
def RCTypeArray.GetSize : ItemType → ℕ
  | .L_BYTE => 1
  | .L_WORD => 2
  | .L_LONG => 4
  | .L_DOUBLE => 8
  | .L_LINK => 2
  | .L_LLINK => 4
  | .L_SRLINK => 4
  | _ => 0

/-! ### Numbers -/

def isxdigit (c : Char) : Bool := c.isDigit || ('a' ≤ c && c ≤ 'f') || ('A' ≤ c && c ≤ 'F')

/-- `DigitValue`. -/
def DigitValue (c : Char) : ℕ :=
  if c.isDigit then c.toNat - '0'.toNat else c.toUpper.toNat - 'A'.toNat + 10

/-- A round of the loop of `ConvertToNatural`. -/
def nextDigit (bHexNumber : Bool) (LongValue : UInt64) (c : Char) : Run UInt64 :=
  if bHexNumber then
    if isxdigit c then .ok (LongValue * 16 + UInt64.ofNat (DigitValue c)) else .error .assertion
  else if c.isDigit then .ok (LongValue * 10 + UInt64.ofNat (DigitValue c))
  else .error (.exits 1)

/-- The loop, with the number of characters before `pSourceChar`. -/
def digits (bHexNumber : Bool) : ℕ → List Char → UInt64 → Run UInt64
  | _, [], LongValue => .ok LongValue
  | pos, c :: chars, LongValue => do
    let LongValue ← nextDigit bHexNumber LongValue c
    assert (pos + 1 < 10000)
    digits bHexNumber (pos + 1) chars LongValue

/-- `iULongValue`, and the number whose low bytes are in `iData`. -/
structure Natural where
  iULongValue : UInt64
  stored : UInt64
  deriving DecidableEq

def ConvertToNatural (Source : String) : Run Natural := do
  let bHexNumber := ['0', 'x'].isPrefixOf Source.toList
  let start := if bHexNumber then 2 else 0
  let bLeadingHyphen := ['-'].isPrefixOf (Source.toList.drop start)
  let start := if bLeadingHyphen then start + 1 else start
  let LongValue ← digits bHexNumber start (Source.toList.drop start) 0
  .ok ⟨LongValue, if bLeadingHyphen then (LongValue ^^^ 0xFFFFFFFF) + 1 else LongValue⟩

/-- The bytes of `NumericValue(Source, type)`. -/
def numberBytes (type : DataType) (Source : String) : Run Bytes := do
  let n ← ConvertToNatural Source
  .ok (⟨type, n.stored.toNat⟩ : NumericValue).iData

def IsDecNatural (s : String) : Bool :=
  (if ['-'].isPrefixOf s.toList then s.toList.drop 1 else s.toList).all Char.isDigit

/-! ### STRUCT -/

structure SimpleStructItem where
  iLabel : String
  iItemType : ItemType
  iDefault : String
  iLengthLimit : String
  deriving DecidableEq

/-- The constructor's `iDefault`. -/
def SimpleStructItem.default : ItemType → String
  | .L_BYTE => "0"
  | .L_WORD => "0"
  | .L_LONG => "0"
  | .L_DOUBLE => "0.0"
  | _ => ""

structure ArrayStructItem where
  iLabel : String
  iItemType : ItemType
  iSize : String
  iDefaults : List String
  iLenType : Option DataType
  deriving DecidableEq

structure StructTypeStructItem where
  iLabel : String
  deriving DecidableEq

structure StructArrayStructItem where
  iLabel : String
  iLenType : Option DataType
  deriving DecidableEq

inductive StructItem
  | simple (item : SimpleStructItem)
  | array (item : ArrayStructItem)
  | structType (item : StructTypeStructItem)
  | structArray (item : StructArrayStructItem)
  deriving DecidableEq

def StructItem.iLabel : StructItem → String
  | .simple item => item.iLabel
  | .array item => item.iLabel
  | .structType item => item.iLabel
  | .structArray item => item.iLabel

/-- `StructHeader`; no two of its members have one label. -/
structure StructHeader where
  iLabel : String
  iSIA : List StructItem
  iLenType : Option DataType
  distinct : (iSIA.map StructItem.iLabel).Nodup

/-- `StructItemArray::Add`. -/
def StructHeader.Add (pSH : StructHeader) (pNewItem : StructItem) : Run StructHeader :=
  if h : pNewItem.iLabel ∈ pSH.iSIA.map StructItem.iLabel then .error (.exits 1)
  else .ok
    { pSH with
      iSIA := pSH.iSIA ++ [pNewItem]
      distinct := by
        rw [List.map_append, List.map_singleton]
        exact pSH.distinct.append (List.nodup_singleton _) (List.disjoint_singleton.mpr h) }

/-- `StructHeaderArray::Find`. -/
def StructHeaderArray.Find (structs : List StructHeader) (LabelSought : String) : Run StructHeader :=
  match structs.find? fun p => p.iLabel == LabelSought with
  | some p => .ok p
  | none => .error (.exits 1)

/-! ### Items -/

mutual

/-- `ResourceItem` with its classes. -/
inductive ResourceItem
  | simple (iStructItem : SimpleStructItem) (iValue : String) (iValueSet : Bool) (iLinkValue : UInt64)
  | array (iStructItem : ArrayStructItem) (iValues : List String)
  | structType (iStructItem : StructTypeStructItem) (iResourceItems : ResourceItemArray)
  | structArray (iStructItem : StructArrayStructItem) (iArrayOfResourceItemArrays : List ResourceItemArray)

inductive ResourceItemArray
  | mk (iLenType : Option DataType) (items : List ResourceItem)

end

def ResourceItemArray.iLenType : ResourceItemArray → Option DataType
  | .mk iLenType _ => iLenType

def ResourceItemArray.items : ResourceItemArray → List ResourceItem
  | .mk _ items => items

def ResourceItem.iLabel : ResourceItem → String
  | .simple item _ _ _ => item.iLabel
  | .array item _ => item.iLabel
  | .structType item _ => item.iLabel
  | .structArray item _ => item.iLabel

/-- `NewResourceItem`; the constructor leaves `iLinkValue` as it is in memory. -/
def StructItem.NewResourceItem (memory : UInt64) : StructItem → ResourceItem
  | .simple item => .simple item "" false memory
  | .array item => .array item []
  | .structType item => .structType item (.mk none [])
  | .structArray item => .structArray item []

/-- `Export` and `ExportLength` with the character sets in use, and `atof` with the 64 bits of its value. -/
structure Conversions where
  Export : String → List UInt16
  ExportLength : String → ℕ
  atof : String → UInt64

/-- The types with a `case` in `SimpleResourceItem::Set`. -/
def ItemType.isText : ItemType → Bool
  | .L_TEXT8 => true
  | .L_LTEXT8 => true
  | .L_BUF8 => true
  | .L_TEXT16 => true
  | .L_LTEXT16 => true
  | .L_BUF16 => true
  | _ => false

/-- `lengthLimit`, `0` for none. -/
def lengthLimit (item : SimpleStructItem) : Run ℕ :=
  if item.iItemType.isText ∧ 0 < item.iLengthLimit.length then do
    let limit ← ConvertToNatural item.iLengthLimit
    .ok limit.iULongValue.toNat
  -- the length is a single byte in the stream
  else if item.iItemType = .L_LTEXT8 ∨ item.iItemType = .L_LTEXT16 then .ok 255
  else .ok 0

/-! ### RESOURCE -/

mutual

/-- `resource_item`. -/
inductive BodyItem
  | simple_initialiser (label value : String)
  | no_initialisers (label : String)
  | simple_initialiser_list (label : String) (values : List String)
  | struct_resource_item (label : String) (element : BodyElement)
  | struct_array_resource_item (label : String) (first : BodyElement) (rest : List BodyElement)

/-- The name of a STRUCT and what stands in the braces behind it. -/
inductive BodyElement
  | mk (structName : String) (body : List BodyItem)

end

section Parse

variable (conv : Conversions) (structs : List StructHeader) (memory : ℕ → UInt64)

/-- `FillFromStruct`; `made` is the number of items made so far, which tells their memory. -/
def ResourceItemArray.FillFromStruct (ria : ResourceItemArray) (aStructName : String) (made : ℕ) :
    Run (ResourceItemArray × ℕ) := do
  let pSH ← StructHeaderArray.Find structs aStructName
  .ok (.mk pSH.iLenType (ria.items ++ pSH.iSIA.mapIdx fun i p => p.NewResourceItem (memory (made + i))),
    made + pSH.iSIA.length)

/-- `Set(const String&)`. -/
def ResourceItem.SetValue (aValue : String) (made : ℕ) : ResourceItem → Run (ResourceItem × ℕ)
  | .simple item _ _ link => do
    let limit ← lengthLimit item
    if 0 < limit ∧ limit < conv.ExportLength aValue then .error (.exits 1)
    else .ok (.simple item aValue true link, made)
  | .array _ _ => .error (.exits 1)
  | .structType item ria => do
    let filled ← ria.FillFromStruct structs memory aValue made
    .ok (.structType item filled.1, filled.2)
  | .structArray item arrays => do
    let filled ← (ResourceItemArray.mk none []).FillFromStruct structs memory aValue made
    .ok (.structArray item (arrays ++ [filled.1]), filled.2)

/-- `Set(const StringArray&)`. -/
def ResourceItem.SetValues (aValues : List String) : ResourceItem → Run ResourceItem
  | .array item _ => .ok (.array item aValues)
  | .structArray item arrays => .ok (.structArray item arrays)
  | _ => .error (.exits 1)

/-- `GetRIA`; the last array that was added is `iLastRIA`. -/
def ResourceItem.GetRIA : ResourceItem → Run ResourceItemArray
  | .structType _ ria => .ok ria
  | .structArray _ arrays =>
    match arrays.getLast? with
    | some ria => .ok ria
    | none => .error .assertion
  | _ => .error .assertion

/-- The item when the array that `GetRIA` gave has become `ria`. -/
def ResourceItem.putRIA (ria : ResourceItemArray) : ResourceItem → ResourceItem
  | .structType item _ => .structType item ria
  | .structArray item arrays => .structArray item (arrays.dropLast ++ [ria])
  | item => item

/-- `Find`, and what is done to the item found. -/
def findAndSet (LabelSought : String) (set : ResourceItem → Run (ResourceItem × ℕ)) :
    List ResourceItem → Run (List ResourceItem × ℕ)
  | [] => .error (.exits 1)
  | p :: items =>
    if p.iLabel = LabelSought then do
      let done ← set p
      .ok (done.1 :: items, done.2)
    else do
      let done ← findAndSet LabelSought set items
      .ok (p :: done.1, done.2)

def ResourceItemArray.Set (ria : ResourceItemArray) (Label : String)
    (set : ResourceItem → Run (ResourceItem × ℕ)) : Run (ResourceItemArray × ℕ) := do
  let done ← findAndSet Label set ria.items
  .ok (.mk ria.iLenType done.1, done.2)

mutual

/-- A `resource_item` for `pCurrentRIA`. -/
def BodyItem.parse : BodyItem → ResourceItemArray → ℕ → Run (ResourceItemArray × ℕ)
  | .simple_initialiser label value, ria, made => ria.Set label (ResourceItem.SetValue conv structs memory value made)
  | .no_initialisers _, ria, made => .ok (ria, made)
  | .simple_initialiser_list label values, ria, made =>
    ria.Set label fun p => do
      let p ← p.SetValues values
      .ok (p, made)
  | .struct_resource_item label element, ria, made => ria.Set label fun p => element.parse p made
  | .struct_array_resource_item label first rest, ria, made =>
    ria.Set label fun p => do
      let done ← first.parse p made
      parseElements rest done.1 done.2

/-- A `resource_item_list`. -/
def parseBody : List BodyItem → ResourceItemArray → ℕ → Run (ResourceItemArray × ℕ)
  | [], ria, made => .ok (ria, made)
  | item :: body, ria, made => do
    let done ← item.parse ria made
    parseBody body done.1 done.2

/-- A STRUCT in a member: the member is set to it, and its body is for the member's array. -/
def BodyElement.parse : BodyElement → ResourceItem → ℕ → Run (ResourceItem × ℕ)
  | .mk structName body, p, made => do
    let done ← p.SetValue conv structs memory structName made
    let ria ← done.1.GetRIA
    let inside ← parseBody body ria done.2
    .ok (done.1.putRIA inside.1, inside.2)

def parseElements : List BodyElement → ResourceItem → ℕ → Run (ResourceItem × ℕ)
  | [], p, made => .ok (p, made)
  | element :: elements, p, made => do
    let done ← element.parse p made
    parseElements elements done.1 done.2

end

end Parse

/-! ### Defaults and the id -/

mutual

def ResourceItem.AddDefault : ResourceItem → ResourceItem
  | .simple item value valueSet link => .simple item (if valueSet then value else item.iDefault) valueSet link
  | .array item values => .array item (values ++ item.iDefaults.drop values.length)
  | .structType item (.mk iLenType items) => .structType item (.mk iLenType (addDefaults items))
  | .structArray item arrays => .structArray item (addDefaultsEach arrays)

/-- `ResourceItemArray::AddDefault`. -/
def addDefaults : List ResourceItem → List ResourceItem
  | [] => []
  | p :: items => p.AddDefault :: addDefaults items

def addDefaultsEach : List ResourceItemArray → List ResourceItemArray
  | [] => []
  | .mk iLenType items :: arrays => .mk iLenType (addDefaults items) :: addDefaultsEach arrays

end

def ResourceItemArray.AddDefault : ResourceItemArray → ResourceItemArray
  | .mk iLenType items => .mk iLenType (addDefaults items)

/-- `SetSRLink`: only a simple item has the body that does something. -/
def ResourceItem.SetSRLink (aSRLinkToSet : UInt64) : ResourceItem → ResourceItem
  | .simple item value valueSet link =>
    .simple item value valueSet (if item.iItemType = .L_SRLINK then aSRLinkToSet else link)
  | item => item

/-- `SetResourceId` as it is for the items. -/
def SetResourceId (aId : UInt64) : ResourceItemArray → ResourceItemArray
  | .mk iLenType items => .mk iLenType (items.map (ResourceItem.SetSRLink aId))

/-! ### Streaming out -/

def textBytes (s : String) : Bytes := s.toList.map fun c => UInt8.ofNat c.toNat

section StreamOut

variable (conv : Conversions)

def StreamOutSingleValue (aValue : String) (aLinkValue : UInt64) : ItemType → Run (List Item)
  | .L_TEXT8 => .ok [.StreamIn (textBytes aValue ++ [0])]
  | .L_LTEXT8 => do
    assert (aValue.length ≤ 255)
    .ok [.StreamIn (UInt8.ofNat aValue.length :: textBytes aValue)]
  | .L_BUF8 => do
    -- `GetBuffer` asserts that the string is not empty
    assert (0 < aValue.length)
    .ok [.StreamIn (textBytes aValue)]
  | .L_BUF16 => .ok [.StreamOutCompressingIfReducesSize (conv.Export aValue)]
  | .L_TEXT16 => .ok [.StreamOutCompressingIfReducesSize (conv.Export aValue ++ [0])]
  | .L_LTEXT16 => do
    assert (aValue.length ≤ 255)
    .ok [.StreamIn [UInt8.ofNat (conv.Export aValue).length],
      .StreamOutCompressingIfReducesSize (conv.Export aValue)]
  | .L_BYTE => do
    assert (0 < aValue.length)
    let bytes ← numberBytes .L_BYTE aValue
    .ok [.StreamIn bytes]
  | .L_WORD => do
    assert (0 < aValue.length)
    let bytes ← numberBytes .L_WORD aValue
    .ok [.StreamIn bytes]
  | .L_LONG => do
    assert (0 < aValue.length)
    let bytes ← numberBytes .L_LONG aValue
    .ok [.StreamIn bytes]
  | .L_DOUBLE => do
    assert (0 < aValue.length)
    .ok [.StreamIn (leBytes 8 (conv.atof aValue).toNat)]
  | .L_SRLINK => .ok [.StreamIn (⟨.L_LONG, aLinkValue.toNat⟩ : NumericValue).iData]
  | .L_LINK =>
    if aValue.length = 0 then .ok []
    else if IsDecNatural aValue then do
      let bytes ← numberBytes .L_WORD aValue
      .ok [.StreamIn bytes]
    else .ok [.WordLink aValue]
  | .L_LLINK =>
    if aValue.length = 0 then .ok []
    else if IsDecNatural aValue then do
      let bytes ← numberBytes .L_LONG aValue
      .ok [.StreamIn bytes]
    else .ok [.LongLink aValue]

/-- The number in front of an array; without LEN it is a WORD. -/
def itemcount (iLenType : Option DataType) (size : ℕ) : Item :=
  .StreamIn (⟨iLenType.getD .L_WORD, size⟩ : NumericValue).iData

/-- The loop of `ArrayResourceItem::StreamOut`. -/
def streamValues (type : ItemType) : List String → Run (List Item)
  | [] => .ok []
  | value :: values => do
    assert (type ≠ .L_SRLINK)
    let front ← StreamOutSingleValue conv value 0 type
    let rest ← streamValues type values
    .ok (front ++ rest)

/-- The size in front of an array of items that has a LEN and is not the resource itself. -/
def withSizePrefix (iLenType : Option DataType) (items : List Item) : List Item :=
  match iLenType with
  | some type => .StartOfBlockWithSizePrefix type :: items ++ [.EndOfBlockWithSizePrefix]
  | none => items

mutual

def ResourceItem.StreamOut : ResourceItem → Run (List Item)
  | .simple item value _ link => StreamOutSingleValue conv value link item.iItemType
  | .array item values => do
    let front := if item.iSize.length = 0 then [itemcount item.iLenType values.length] else []
    let rest ← streamValues conv item.iItemType values
    .ok (front ++ rest)
  | .structType _ (.mk iLenType items) => do
    let inside ← streamItems items
    .ok (if items = [] then [] else withSizePrefix iLenType inside)
  | .structArray item arrays => do
    let rest ← streamArrays arrays
    .ok (itemcount item.iLenType arrays.length :: rest)

def streamItems : List ResourceItem → Run (List Item)
  | [] => .ok []
  | p :: items => do
    let front ← p.StreamOut
    let rest ← streamItems items
    .ok (front ++ rest)

def streamArrays : List ResourceItemArray → Run (List Item)
  | [] => .ok []
  | .mk iLenType items :: arrays => do
    let inside ← streamItems items
    let rest ← streamArrays arrays
    .ok ((if items = [] then [] else withSizePrefix iLenType inside) ++ rest)

end

/-- `iRIA.StreamOut` of a resource, where `RecursionLevel` is 0. -/
def ResourceItemArray.StreamOut (ria : ResourceItemArray) : Run (List Item) := streamItems conv ria.items

end StreamOut

/-! ### A resource -/

section Resource

variable (conv : Conversions) (structs : List StructHeader) (memory : ℕ → UInt64)

/-- The items of a RESOURCE statement with their defaults. -/
def resourceItems (structName : String) (body : List BodyItem) : Run ResourceItemArray := do
  let filled ← (ResourceItemArray.mk none []).FillFromStruct structs memory structName 0
  let done ← parseBody conv structs memory body filled.1 filled.2
  .ok done.1.AddDefault

/-- What the items of a RESOURCE statement do with the stream. -/
def resourceStream (structName : String) (body : List BodyItem) (aId : UInt64) : Run (List Item) := do
  let ria ← resourceItems conv structs memory structName body
  (SetResourceId aId ria).StreamOut conv

end Resource

/-! ### Items side by side with their members -/

theorem addDefaults_eq_map (items : List ResourceItem) : addDefaults items = items.map ResourceItem.AddDefault := by
  induction items with
  | nil => rfl
  | cons p items ih => rw [addDefaults, ih, List.map_cons]

theorem newItems_forall₂ {R : StructItem → ResourceItem → Prop} (memory : ℕ → UInt64) {iSIA : List StructItem}
    (hnew : ∀ q ∈ iSIA, ∀ i, R q (q.NewResourceItem (memory i))) : ∀ made,
    List.Forall₂ R iSIA (iSIA.mapIdx fun i q => q.NewResourceItem (memory (made + i))) := by
  induction iSIA with
  | nil =>
    intro made
    exact .nil
  | cons q iSIA ih =>
    intro made
    rw [List.mapIdx_cons]
    refine .cons (hnew q (List.mem_cons_self ..) (made + 0)) ?_
    have hrest := ih (fun q' hq' => hnew q' (List.mem_cons_of_mem _ hq')) (made + 1)
    simp only [Nat.add_assoc, Nat.add_comm 1] at hrest
    exact hrest

/-- What is done to the item found is done to the member with the label, and to no other. -/
theorem findAndSet_forall₂ {R R' : StructItem → ResourceItem → Prop} {label : String}
    {set : ResourceItem → Run (ResourceItem × ℕ)} (hlabel : ∀ q p, R q p → p.iLabel = q.iLabel)
    (hset : ∀ q p done, R q p → q.iLabel = label → set p = .ok done → R' q done.1)
    (hother : ∀ q p, R q p → q.iLabel ≠ label → R' q p) {iSIA : List StructItem} {items : List ResourceItem}
    (h : List.Forall₂ R iSIA items) :
    ∀ {done : List ResourceItem × ℕ}, (iSIA.map StructItem.iLabel).Nodup → findAndSet label set items = .ok done →
      List.Forall₂ R' iSIA done.1 := by
  induction h with
  | nil =>
    intro done hdistinct hdone
    cases hdone
  | @cons q p iSIA items hqp hrest ih =>
    intro done hdistinct hdone
    rw [List.map_cons, List.nodup_cons] at hdistinct
    rw [findAndSet] at hdone
    by_cases hfound : p.iLabel = label
    · rw [if_pos hfound] at hdone
      obtain ⟨done', hdone', hdone⟩ := bind_eq_ok.mp hdone
      injection hdone with hdone
      rw [← hdone]
      have hq : q.iLabel = label := (hlabel q p hqp).symm.trans hfound
      refine .cons (hset q p done' hqp hq hdone') ?_
      -- the label is not met again
      have hapart : ∀ q' ∈ iSIA, q'.iLabel ≠ label := by
        intro q' hq' heq
        refine hdistinct.1 (List.mem_map.mpr ⟨q', hq', ?_⟩)
        rw [heq, hq]
      rw [List.forall₂_iff_zip] at hrest ⊢
      refine ⟨hrest.1, ?_⟩
      intro q' p' hmem
      exact hother q' p' (hrest.2 hmem) (hapart q' (List.of_mem_zip hmem).1)
    · rw [if_neg hfound] at hdone
      obtain ⟨done', hdone', hdone⟩ := bind_eq_ok.mp hdone
      injection hdone with hdone
      rw [← hdone]
      have hq : q.iLabel ≠ label := by
        intro hq
        exact hfound ((hlabel q p hqp).trans hq)
      exact .cons (hother q p hqp hq) (ih hdistinct.2 hdone')

theorem set_forall₂ {R R' : StructItem → ResourceItem → Prop} {label : String} {ria : ResourceItemArray}
    {set : ResourceItem → Run (ResourceItem × ℕ)} {iSIA : List StructItem} {done : ResourceItemArray × ℕ}
    (hlabel : ∀ q p, R q p → p.iLabel = q.iLabel)
    (hset : ∀ q p done, R q p → q.iLabel = label → set p = .ok done → R' q done.1)
    (hother : ∀ q p, R q p → q.iLabel ≠ label → R' q p) (h : List.Forall₂ R iSIA ria.items)
    (hdistinct : (iSIA.map StructItem.iLabel).Nodup) (hdone : ria.Set label set = .ok done) :
    List.Forall₂ R' iSIA done.1.items := by
  obtain ⟨done', hdone', heq⟩ := bind_eq_ok.mp hdone
  injection heq with heq
  rw [← heq]
  exact findAndSet_forall₂ hlabel hset hother h hdistinct hdone'

end GnuPoc.Rcomp
