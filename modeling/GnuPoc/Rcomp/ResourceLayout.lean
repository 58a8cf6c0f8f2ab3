import GnuPoc.Rcomp.FixedSize

/-!
# GnuPoc.Rcomp.ResourceLayout — a resource as the encodings of its fields

A STRUCT gives the order of the fields, a body gives some of them a value.  The encoding of a field is that of its
value, or of its default; a resource is the encodings one after the other, in whatever order the body has them.
-/

namespace GnuPoc.Rcomp

open GnuPoc.Lib

/-! ### Encodings -/

def BodyItem.label : BodyItem → String
  | .simple_initialiser label _ => label
  | .no_initialisers label => label
  | .simple_initialiser_list label _ => label
  | .struct_resource_item label _ => label
  | .struct_array_resource_item label _ _ => label

/-- What a value is for a field. -/
abbrev Encoding := StructItem → Run (List Item)

section Encode

variable (conv : Conversions) (structs : List StructHeader) (aId : UInt64)

/-- The values of an array, with their number in front if the declaration has none. -/
def encodeArray (item : ArrayStructItem) (values : List String) : Run (List Item) := do
  let front := if item.iSize.length = 0 then [itemcount item.iLenType values.length] else []
  let rest ← streamValues conv item.iItemType values
  .ok (front ++ rest)

/-- A field that is given nothing. -/
def encodeDefault : Encoding
  | .simple item => StreamOutSingleValue conv item.iDefault aId item.iItemType
  | .array item => encodeArray conv item item.iDefaults
  | .structType _ => .ok []
  | .structArray item => .ok [itemcount item.iLenType 0]

def encodeField (given : List (String × Encoding)) (field : StructItem) : Run (List Item) :=
  match given.lookup field.iLabel with
  | some encoding => encoding field
  | none => encodeDefault conv aId field

/-- The fields in the order of the declaration. -/
def encodeFields (given : List (String × Encoding)) : List StructItem → Run (List Item)
  | [] => .ok []
  | field :: fields => do
    let front ← encodeField conv aId given field
    let rest ← encodeFields given fields
    .ok (front ++ rest)

mutual

def BodyItem.encode : BodyItem → Encoding
  | .simple_initialiser _ value, .simple item => StreamOutSingleValue conv value aId item.iItemType
  | .simple_initialiser_list _ values, .array item =>
    encodeArray conv item (values ++ item.iDefaults.drop values.length)
  | .struct_resource_item _ element, .structType _ => element.encode
  | .struct_array_resource_item _ first rest, .structArray item => do
    let front ← first.encode
    let back ← encodeElements rest
    .ok (itemcount item.iLenType (rest.length + 1) :: (front ++ back))
  | _, field => encodeDefault conv aId field

/-- A structure inside the resource has a size in front if its STRUCT gives a type for it, and has members. -/
def BodyElement.encode : BodyElement → Run (List Item)
  | .mk structName body => do
    let pSH ← StructHeaderArray.Find structs structName
    let inside ← encodeFields conv aId (encodeBody body) pSH.iSIA
    .ok (if pSH.iSIA = [] then [] else withSizePrefix pSH.iLenType inside)

def encodeElements : List BodyElement → Run (List Item)
  | [] => .ok []
  | element :: elements => do
    let front ← element.encode
    let rest ← encodeElements elements
    .ok (front ++ rest)

/-- What a body gives each label. -/
def encodeBody : List BodyItem → List (String × Encoding)
  | [] => []
  | item :: body => (item.label, item.encode) :: encodeBody body

end

end Encode

/-! ### Bodies that fit a STRUCT -/

def StructItem.isSRLink : StructItem → Bool
  | .simple item => item.iItemType = .L_SRLINK
  | _ => false

mutual

/-- A value of the kind of its field. -/
def BodyItem.Fits (structs : List StructHeader) : BodyItem → StructItem → Prop
  | .simple_initialiser _ _, .simple _ => True
  | .no_initialisers _, .array _ => True
  | .no_initialisers _, .structArray _ => True
  | .simple_initialiser_list _ _, .array _ => True
  | .struct_resource_item _ element, .structType _ => element.Fits structs
  | .struct_array_resource_item _ first rest, .structArray _ => first.Fits structs ∧ elementsFit structs rest
  | _, _ => False

/-- No SRLINK is reached inside a resource; see `GnuPoc.Rcomp.SRLink`. -/
def BodyElement.Fits (structs : List StructHeader) : BodyElement → Prop
  | .mk structName body => ∃ pSH, StructHeaderArray.Find structs structName = .ok pSH ∧
      (∀ q ∈ pSH.iSIA, q.isSRLink = false) ∧ bodyFits structs body pSH.iSIA

def elementsFit (structs : List StructHeader) : List BodyElement → Prop
  | [] => True
  | element :: elements => element.Fits structs ∧ elementsFit structs elements

/-- Each field is given a value of its kind, at most once. -/
def bodyFits (structs : List StructHeader) : List BodyItem → List StructItem → Prop
  | [], _ => True
  | item :: body, iSIA => item.label ∉ body.map BodyItem.label ∧
      (∀ q ∈ iSIA, q.iLabel = item.label → item.Fits structs q) ∧ bodyFits structs body iSIA

end

/-! ### What a body gives a label -/

section Given

variable {conv : Conversions} {structs : List StructHeader} {aId : UInt64}

theorem encodeField_of_mem {body : List BodyItem} {item : BodyItem} {field : StructItem}
    (hdistinct : (body.map BodyItem.label).Nodup) (hitem : item ∈ body) (hlabel : item.label = field.iLabel) :
    encodeField conv aId (encodeBody conv structs aId body) field = item.encode conv structs aId field := by
  induction body with
  | nil => cases hitem
  | cons item' body ih =>
    rw [List.map_cons, List.nodup_cons] at hdistinct
    rcases List.mem_cons.mp hitem with rfl | hitem
    · rw [encodeField, encodeBody, List.lookup_cons, hlabel, beq_self_eq_true]
    · have hne : field.iLabel ≠ item'.label := by
        intro heq
        refine hdistinct.1 (List.mem_map.mpr ⟨item, hitem, ?_⟩)
        rw [hlabel, heq]
      rw [encodeField, encodeBody, List.lookup_cons, beq_false_of_ne hne]
      exact ih hdistinct.2 hitem

theorem encodeField_of_not_mem {body : List BodyItem} {field : StructItem}
    (h : ∀ item ∈ body, item.label ≠ field.iLabel) :
    encodeField conv aId (encodeBody conv structs aId body) field = encodeDefault conv aId field := by
  induction body with
  | nil => rfl
  | cons item body ih =>
    rw [List.forall_mem_cons] at h
    rw [encodeField, encodeBody, List.lookup_cons, beq_false_of_ne h.1.symm]
    exact ih h.2

theorem encodeField_perm {body body' : List BodyItem} (hdistinct : (body.map BodyItem.label).Nodup)
    (hperm : body.Perm body') (field : StructItem) :
    encodeField conv aId (encodeBody conv structs aId body') field =
      encodeField conv aId (encodeBody conv structs aId body) field := by
  have hdistinct' : (body'.map BodyItem.label).Nodup := (hperm.map BodyItem.label).nodup_iff.mp hdistinct
  by_cases hgiven : ∃ item ∈ body, item.label = field.iLabel
  · obtain ⟨item, hitem, hlabel⟩ := hgiven
    rw [encodeField_of_mem hdistinct hitem hlabel, encodeField_of_mem hdistinct' (hperm.mem_iff.mp hitem) hlabel]
  · have hnone : ∀ item ∈ body, item.label ≠ field.iLabel := by
      intro item hitem hlabel
      exact hgiven ⟨item, hitem, hlabel⟩
    have hnone' : ∀ item ∈ body', item.label ≠ field.iLabel := by
      intro item hitem
      exact hnone item (hperm.mem_iff.mpr hitem)
    rw [encodeField_of_not_mem hnone, encodeField_of_not_mem hnone']

theorem encodeFields_perm {body body' : List BodyItem} (hdistinct : (body.map BodyItem.label).Nodup)
    (hperm : body.Perm body') (fields : List StructItem) :
    encodeFields conv aId (encodeBody conv structs aId body') fields =
      encodeFields conv aId (encodeBody conv structs aId body) fields := by
  induction fields with
  | nil => rfl
  | cons field fields ih => rw [encodeFields, encodeFields, encodeField_perm hdistinct hperm, ih]

theorem bodyFits_iff {body : List BodyItem} {iSIA : List StructItem} :
    bodyFits structs body iSIA ↔ (body.map BodyItem.label).Nodup ∧
      ∀ item ∈ body, ∀ q ∈ iSIA, q.iLabel = item.label → item.Fits structs q := by
  induction body with
  | nil => simp [bodyFits]
  | cons item body ih =>
    rw [bodyFits, ih, List.map_cons, List.nodup_cons, List.forall_mem_cons]
    constructor
    · rintro ⟨hfresh, hitem, hdistinct, hbody⟩
      exact ⟨⟨hfresh, hdistinct⟩, hitem, hbody⟩
    · rintro ⟨⟨hfresh, hdistinct⟩, hitem, hbody⟩
      exact ⟨hfresh, hitem, hdistinct, hbody⟩

end Given

/-! ### Items of a field -/

def ResourceItem.structItem : ResourceItem → StructItem
  | .simple item _ _ _ => .simple item
  | .array item _ => .array item
  | .structType item _ => .structType item
  | .structArray item _ => .structArray item

theorem iLabel_structItem (p : ResourceItem) : p.structItem.iLabel = p.iLabel := by
  cases p with
  | simple item value valueSet link => rfl
  | array item values => rfl
  | structType item ria => rfl
  | structArray item arrays => rfl

theorem structItem_new (memory : UInt64) (q : StructItem) : (q.NewResourceItem memory).structItem = q := by
  cases q with
  | simple item => rfl
  | array item => rfl
  | structType item => rfl
  | structArray item => rfl

theorem structItem_addDefault (p : ResourceItem) : p.AddDefault.structItem = p.structItem := by
  cases p with
  | simple item value valueSet link => rfl
  | array item values => rfl
  | structType item ria =>
    obtain ⟨iLenType, items⟩ := ria
    rfl
  | structArray item arrays => rfl

theorem setSRLink_of_not_isSRLink {p : ResourceItem} (h : p.structItem.isSRLink = false) (aId : UInt64) :
    p.SetSRLink aId = p := by
  cases p with
  | simple item value valueSet link =>
    rw [ResourceItem.SetSRLink, if_neg (of_decide_eq_false h)]
  | array item values => rfl
  | structType item ria => rfl
  | structArray item arrays => rfl

theorem streamOutSingleValue_link (conv : Conversions) (value : String) (link aId : UInt64) (type : ItemType) :
    StreamOutSingleValue conv value (if type = .L_SRLINK then aId else link) type =
      StreamOutSingleValue conv value aId type := by
  cases type <;> rfl

/-! ### What the parser makes of a field -/

/-- What an item is streamed out as, with its default and the id. -/
def finalStream (conv : Conversions) (aId : UInt64) (p : ResourceItem) : Run (List Item) :=
  (p.AddDefault.SetSRLink aId).StreamOut conv

/-- What the items of a structure inside the resource are streamed out as. -/
def streamArray (conv : Conversions) : ResourceItemArray → Run (List Item)
  | .mk iLenType items => do
    let inside ← streamItems conv items
    .ok (if items = [] then [] else withSizePrefix iLenType inside)

theorem streamArrays_cons (conv : Conversions) (ria : ResourceItemArray) (arrays : List ResourceItemArray) :
    streamArrays conv (ria :: arrays) = (do
      let front ← streamArray conv ria
      let rest ← streamArrays conv arrays
      .ok (front ++ rest)) := by
  obtain ⟨iLenType, items⟩ := ria
  rw [streamArrays, streamArray]
  simp only [bind_assoc, run_ok_bind]

/-- The item of a field when the part `front` of a body is parsed. -/
structure Built (conv : Conversions) (structs : List StructHeader) (aId : UInt64) (front : List BodyItem)
    (q : StructItem) (p : ResourceItem) : Prop where
  structItem : p.structItem = q
  untouched : (∀ item ∈ front, item.label ≠ q.iLabel) → ∃ memory, p = q.NewResourceItem memory
  given : ∀ item ∈ front, item.label = q.iLabel → finalStream conv aId p = item.encode conv structs aId q

section Built

variable {conv : Conversions} {structs : List StructHeader} {aId : UInt64} {front : List BodyItem} {q : StructItem}
  {p : ResourceItem} {item : BodyItem}

theorem Built.iLabel (h : Built conv structs aId front q p) : p.iLabel = q.iLabel := by
  rw [← h.structItem, iLabel_structItem]

theorem built_new (memory : UInt64) (q : StructItem) : Built conv structs aId [] q (q.NewResourceItem memory) where
  structItem := structItem_new memory q
  untouched := fun _ => ⟨memory, rfl⟩
  given := by
    intro item h
    cases h

theorem Built.keep (h : Built conv structs aId front q p) (hlabel : q.iLabel ≠ item.label) :
    Built conv structs aId (front ++ [item]) q p where
  structItem := h.structItem
  untouched := fun hnone => h.untouched fun item' hmem => hnone item' (List.mem_append_left _ hmem)
  given := by
    intro item' hmem heq
    rcases List.mem_append.mp hmem with hmem | hmem
    · exact h.given item' hmem heq
    · rw [List.mem_singleton.mp hmem] at heq
      exact absurd heq.symm hlabel

theorem Built.isNew (h : Built conv structs aId front q p) (hlabel : q.iLabel = item.label)
    (hfresh : item.label ∉ front.map BodyItem.label) : ∃ memory, p = q.NewResourceItem memory := by
  refine h.untouched ?_
  intro item' hmem heq
  exact hfresh (List.mem_map.mpr ⟨item', hmem, heq.trans hlabel⟩)

theorem built_give (hstruct : p.structItem = q) (hlabel : q.iLabel = item.label)
    (hfresh : item.label ∉ front.map BodyItem.label)
    (hstream : finalStream conv aId p = item.encode conv structs aId q) :
    Built conv structs aId (front ++ [item]) q p where
  structItem := hstruct
  untouched := by
    intro hnone
    exact absurd hlabel.symm (hnone item (List.mem_append_right _ (List.mem_singleton_self _)))
  given := by
    intro item' hmem heq
    rcases List.mem_append.mp hmem with hmem | hmem
    · exact absurd (List.mem_map.mpr ⟨item', hmem, heq.trans hlabel⟩) hfresh
    · rw [List.mem_singleton.mp hmem]
      exact hstream

theorem finalStream_new (memory : UInt64) (q : StructItem) :
    finalStream conv aId (q.NewResourceItem memory) = encodeDefault conv aId q := by
  cases q with
  | simple item => exact streamOutSingleValue_link conv item.iDefault memory aId item.iItemType
  | array item => rfl
  | structType item => rfl
  | structArray item => rfl

theorem Built.stream {body : List BodyItem} (h : Built conv structs aId body q p)
    (hdistinct : (body.map BodyItem.label).Nodup) :
    finalStream conv aId p = encodeField conv aId (encodeBody conv structs aId body) q := by
  by_cases hgiven : ∃ item ∈ body, item.label = q.iLabel
  · obtain ⟨item, hitem, hlabel⟩ := hgiven
    rw [encodeField_of_mem hdistinct hitem hlabel, h.given item hitem hlabel]
  · have hnone : ∀ item ∈ body, item.label ≠ q.iLabel := by
      intro item hitem hlabel
      exact hgiven ⟨item, hitem, hlabel⟩
    obtain ⟨memory, rfl⟩ := h.untouched hnone
    rw [encodeField_of_not_mem hnone, finalStream_new]

theorem streamItems_built {body : List BodyItem} {iSIA : List StructItem} {items : List ResourceItem}
    (hdistinct : (body.map BodyItem.label).Nodup) (h : List.Forall₂ (Built conv structs aId body) iSIA items) :
    streamItems conv ((addDefaults items).map (ResourceItem.SetSRLink aId)) =
      encodeFields conv aId (encodeBody conv structs aId body) iSIA := by
  induction h with
  | nil => rfl
  | cons hqp _ ih => rw [addDefaults, List.map_cons, streamItems, encodeFields, ih, ← hqp.stream hdistinct, finalStream]

theorem map_setSRLink {body : List BodyItem} {iSIA : List StructItem} {items : List ResourceItem}
    (h : List.Forall₂ (Built conv structs aId body) iSIA items) (hlink : ∀ q ∈ iSIA, q.isSRLink = false) :
    (addDefaults items).map (ResourceItem.SetSRLink aId) = addDefaults items := by
  induction h with
  | nil => rfl
  | @cons q p iSIA items hqp _ ih =>
    rw [List.forall_mem_cons] at hlink
    have hp : p.AddDefault.structItem.isSRLink = false := by
      rw [structItem_addDefault, hqp.structItem]
      exact hlink.1
    rw [addDefaults, List.map_cons, setSRLink_of_not_isSRLink hp, ih hlink.2]

theorem newItems_built (memory : ℕ → UInt64) (iSIA : List StructItem) (made : ℕ) :
    List.Forall₂ (Built conv structs aId []) iSIA
      (iSIA.mapIdx fun i q => q.NewResourceItem (memory (made + i))) :=
  newItems_forall₂ memory (fun q _ i => built_new (memory i) q) made

theorem streamArray_built {pSH : StructHeader} {body : List BodyItem} {ria : ResourceItemArray}
    (hdistinct : (body.map BodyItem.label).Nodup) (hlink : ∀ q ∈ pSH.iSIA, q.isSRLink = false)
    (hlen : ria.iLenType = pSH.iLenType) (h : List.Forall₂ (Built conv structs aId body) pSH.iSIA ria.items) :
    streamArray conv ria.AddDefault = (do
      let inside ← encodeFields conv aId (encodeBody conv structs aId body) pSH.iSIA
      .ok (if pSH.iSIA = [] then [] else withSizePrefix pSH.iLenType inside)) := by
  obtain ⟨iLenType, items⟩ := ria
  change iLenType = pSH.iLenType at hlen
  change List.Forall₂ (Built conv structs aId body) pSH.iSIA items at h
  have hempty : addDefaults items = [] ↔ pSH.iSIA = [] := by
    rw [addDefaults_eq_map, List.map_eq_nil_iff, ← List.length_eq_zero_iff, ← List.length_eq_zero_iff, h.length_eq]
  have hstream := streamItems_built hdistinct h
  rw [map_setSRLink h hlink] at hstream
  rw [ResourceItemArray.AddDefault, streamArray, hstream, hlen]
  simp only [hempty]

end Built

/-! ### Bodies -/

theorem length_addDefaultsEach (arrays : List ResourceItemArray) :
    (addDefaultsEach arrays).length = arrays.length := by
  induction arrays with
  | nil => rfl
  | cons ria arrays ih =>
    obtain ⟨iLenType, items⟩ := ria
    rw [addDefaultsEach, List.length_cons, List.length_cons, ih]

section Parse

variable {conv : Conversions} {structs : List StructHeader} {memory : ℕ → UInt64} {aId : UInt64}

theorem set_iLenType {ria : ResourceItemArray} {label : String} {set : ResourceItem → Run (ResourceItem × ℕ)}
    {done : ResourceItemArray × ℕ} (h : ria.Set label set = .ok done) : done.1.iLenType = ria.iLenType := by
  obtain ⟨done', -, h⟩ := bind_eq_ok.mp h
  injection h with h
  rw [← h]
  rfl

theorem set_built {front : List BodyItem} {item : BodyItem} {iSIA : List StructItem} {ria : ResourceItemArray}
    {set : ResourceItem → Run (ResourceItem × ℕ)} {done : ResourceItemArray × ℕ}
    (hdistinct : (iSIA.map StructItem.iLabel).Nodup)
    (hbuilt : List.Forall₂ (Built conv structs aId front) iSIA ria.items)
    (hfresh : item.label ∉ front.map BodyItem.label)
    (hfits : ∀ q ∈ iSIA, q.iLabel = item.label → item.Fits structs q)
    (hset : ∀ q m done, item.Fits structs q → set (q.NewResourceItem m) = .ok done →
      done.1.structItem = q ∧ finalStream conv aId done.1 = item.encode conv structs aId q)
    (h : ria.Set item.label set = .ok done) :
    done.1.iLenType = ria.iLenType ∧ List.Forall₂ (Built conv structs aId (front ++ [item])) iSIA done.1.items := by
  refine ⟨set_iLenType h, ?_⟩
  have hmem : List.Forall₂ (fun q p => q ∈ iSIA ∧ Built conv structs aId front q p) iSIA ria.items :=
    (List.forall₂_and_left _ _).mpr ⟨fun q hq => hq, hbuilt⟩
  refine set_forall₂ ?_ ?_ ?_ hmem hdistinct h
  · intro q p hqp
    exact hqp.2.iLabel
  · intro q p done' hqp hq hdone'
    obtain ⟨m, rfl⟩ := hqp.2.isNew hq hfresh
    obtain ⟨hstruct, hstream⟩ := hset q m done' (hfits q hqp.1 hq) hdone'
    exact built_give hstruct hq hfresh hstream
  · intro q p hqp hq
    exact hqp.2.keep hq

mutual

/-- An item of a body fills the field of its name. -/
theorem bodyItem_built : ∀ (item : BodyItem) {front : List BodyItem} {iSIA : List StructItem}
    {ria : ResourceItemArray} {made : ℕ} {done : ResourceItemArray × ℕ},
    (iSIA.map StructItem.iLabel).Nodup → List.Forall₂ (Built conv structs aId front) iSIA ria.items →
    item.label ∉ front.map BodyItem.label → (∀ q ∈ iSIA, q.iLabel = item.label → item.Fits structs q) →
    item.parse conv structs memory ria made = .ok done →
    done.1.iLenType = ria.iLenType ∧ List.Forall₂ (Built conv structs aId (front ++ [item])) iSIA done.1.items
  | .simple_initialiser label value, front, iSIA, ria, made, done, hdistinct, hbuilt, hfresh, hfits, h => by
    rw [BodyItem.parse] at h
    refine set_built hdistinct hbuilt hfresh hfits ?_ h
    intro q m done' hfit hdone'
    cases q with
    | simple item =>
      rw [StructItem.NewResourceItem, ResourceItem.SetValue] at hdone'
      obtain ⟨limit, -, hdone'⟩ := bind_eq_ok.mp hdone'
      split at hdone'
      · cases hdone'
      · injection hdone' with hdone'
        rw [← hdone']
        exact ⟨rfl, streamOutSingleValue_link conv value m aId item.iItemType⟩
    | array item => cases hdone'
    | structType item => cases hfit
    | structArray item => cases hfit
  | .no_initialisers label, front, iSIA, ria, made, done, hdistinct, hbuilt, hfresh, hfits, h => by
    rw [BodyItem.parse] at h
    injection h with h
    rw [← h]
    refine ⟨rfl, ?_⟩
    have hmem : List.Forall₂ (fun q p => q ∈ iSIA ∧ Built conv structs aId front q p) iSIA ria.items :=
      (List.forall₂_and_left _ _).mpr ⟨fun q hq => hq, hbuilt⟩
    refine hmem.imp ?_
    intro q p hqp
    by_cases hq : q.iLabel = label
    · obtain ⟨m, rfl⟩ := @Built.isNew _ _ _ _ _ _ (.no_initialisers label) hqp.2 hq hfresh
      refine built_give (structItem_new m q) hq hfresh ?_
      have hfit := hfits q hqp.1 hq
      rw [finalStream_new]
      cases q with
      | simple item => cases hfit
      | array item => rfl
      | structType item => cases hfit
      | structArray item => rfl
    · exact hqp.2.keep hq
  | .simple_initialiser_list label values, front, iSIA, ria, made, done, hdistinct, hbuilt, hfresh, hfits, h => by
    rw [BodyItem.parse] at h
    refine set_built hdistinct hbuilt hfresh hfits ?_ h
    intro q m done' hfit hdone'
    obtain ⟨p, hp, hdone'⟩ := bind_eq_ok.mp hdone'
    injection hdone' with hdone'
    rw [← hdone']
    cases q with
    | simple item => cases hfit
    | array item =>
      injection hp with hp
      rw [← hp]
      exact ⟨rfl, rfl⟩
    | structType item => cases hfit
    | structArray item => cases hfit
  | .struct_resource_item label element, front, iSIA, ria, made, done, hdistinct, hbuilt, hfresh, hfits, h => by
    rw [BodyItem.parse] at h
    refine set_built hdistinct hbuilt hfresh hfits ?_ h
    intro q m done' hfit hdone'
    cases q with
    | simple item => cases hfit
    | array item => cases hfit
    | structType item =>
      obtain ⟨inside, hinside, hstream⟩ := (element_built element hfit hdone').1 item rfl
      rw [hinside]
      obtain ⟨iLenType, items⟩ := inside
      exact ⟨rfl, hstream⟩
    | structArray item => cases hfit
  | .struct_array_resource_item label first rest, front, iSIA, ria, made, done, hdistinct, hbuilt, hfresh, hfits,
      h => by
    rw [BodyItem.parse] at h
    refine set_built hdistinct hbuilt hfresh hfits ?_ h
    intro q m done' hfit hdone'
    obtain ⟨done₁, hdone₁, hrest⟩ := bind_eq_ok.mp hdone'
    cases q with
    | simple item => cases hfit
    | array item => cases hfit
    | structType item => cases hfit
    | structArray item =>
      obtain ⟨one, hone, hstream⟩ := (element_built first hfit.1 hdone₁).2 item [] rfl
      obtain ⟨arrays, harrays, hlen, hmore⟩ := elements_built rest hfit.2 hone hrest
      rw [harrays]
      refine ⟨rfl, ?_⟩
      have hfirst : addDefaultsEach (one :: arrays) = one.AddDefault :: addDefaultsEach arrays := by
        obtain ⟨iLenType, items⟩ := one
        rfl
      have hcount : (one.AddDefault :: addDefaultsEach arrays).length = rest.length + 1 := by
        rw [List.length_cons, length_addDefaultsEach, hlen]
      show (streamArrays conv (addDefaultsEach (one :: arrays)) >>= fun rest =>
        .ok (itemcount item.iLenType (addDefaultsEach (one :: arrays)).length :: rest)) = _
      rw [hfirst, hcount, streamArrays_cons, hstream, hmore]
      simp only [bind_assoc, run_ok_bind]
      rfl

/-- A body fills the fields it names and leaves the defaults of the others. -/
theorem body_built : ∀ (body : List BodyItem) {front : List BodyItem} {iSIA : List StructItem}
    {ria : ResourceItemArray} {made : ℕ} {done : ResourceItemArray × ℕ},
    (iSIA.map StructItem.iLabel).Nodup → List.Forall₂ (Built conv structs aId front) iSIA ria.items →
    (∀ item ∈ body, item.label ∉ front.map BodyItem.label) → bodyFits structs body iSIA →
    parseBody conv structs memory body ria made = .ok done →
    done.1.iLenType = ria.iLenType ∧ List.Forall₂ (Built conv structs aId (front ++ body)) iSIA done.1.items
  | [], front, iSIA, ria, made, done, hdistinct, hbuilt, hfresh, hfits, h => by
    rw [parseBody] at h
    injection h with h
    rw [← h, List.append_nil]
    exact ⟨rfl, hbuilt⟩
  | item :: body, front, iSIA, ria, made, done, hdistinct, hbuilt, hfresh, hfits, h => by
    rw [parseBody] at h
    obtain ⟨done', hdone', h⟩ := bind_eq_ok.mp h
    rw [List.forall_mem_cons] at hfresh
    obtain ⟨honce, hitem, hbody⟩ := hfits
    obtain ⟨hlen, hbuilt'⟩ := bodyItem_built item hdistinct hbuilt hfresh.1 hitem hdone'
    have hfresh' : ∀ item' ∈ body, item'.label ∉ (front ++ [item]).map BodyItem.label := by
      intro item' hmem
      rw [List.map_append, List.mem_append, not_or]
      refine ⟨hfresh.2 item' hmem, ?_⟩
      intro hsame
      refine honce (List.mem_map.mpr ⟨item', hmem, ?_⟩)
      exact List.mem_singleton.mp hsame
    obtain ⟨hlen', hrest⟩ := body_built body hdistinct hbuilt' hfresh' hbody h
    rw [List.append_cons]
    exact ⟨hlen'.trans hlen, hrest⟩

theorem element_built : ∀ (element : BodyElement) {p : ResourceItem} {made : ℕ} {done : ResourceItem × ℕ},
    element.Fits structs → element.parse conv structs memory p made = .ok done →
    (∀ item, p = .structType item (.mk none []) → ∃ ria, done.1 = .structType item ria ∧
      streamArray conv ria.AddDefault = element.encode conv structs aId) ∧
    ∀ item arrays, p = .structArray item arrays → ∃ ria, done.1 = .structArray item (arrays ++ [ria]) ∧
      streamArray conv ria.AddDefault = element.encode conv structs aId
  | .mk structName body, p, made, done, hfit, h => by
    obtain ⟨pSH, hfound, hlink, hfits⟩ := hfit
    rw [BodyElement.parse] at h
    obtain ⟨set, hset, h⟩ := bind_eq_ok.mp h
    obtain ⟨ria, hria, h⟩ := bind_eq_ok.mp h
    obtain ⟨inside, hinside, h⟩ := bind_eq_ok.mp h
    injection h with h
    have hencode : ∀ {made'}, ria = .mk pSH.iLenType
        ([] ++ pSH.iSIA.mapIdx fun i q => q.NewResourceItem (memory (made' + i))) →
        streamArray conv inside.1.AddDefault = (BodyElement.mk structName body).encode conv structs aId := by
      intro made' hfilled
      have hnew : List.Forall₂ (Built conv structs aId []) pSH.iSIA ria.items := by
        rw [hfilled]
        exact newItems_built memory pSH.iSIA made'
      have hnone : ∀ item ∈ body, item.label ∉ ([] : List BodyItem).map BodyItem.label :=
        fun _ _ => List.not_mem_nil
      obtain ⟨hlen, hbuilt⟩ := body_built body pSH.distinct hnew hnone hfits hinside
      have hlen' : inside.1.iLenType = pSH.iLenType := by
        rw [hlen, hfilled]
        rfl
      rw [BodyElement.encode, hfound, run_ok_bind]
      exact streamArray_built (bodyFits_iff.mp hfits).1 hlink hlen' hbuilt
    refine ⟨?_, ?_⟩
    · intro item hp
      rw [hp, ResourceItem.SetValue] at hset
      obtain ⟨filled, hfilled, hset⟩ := bind_eq_ok.mp hset
      injection hset with hset
      rw [ResourceItemArray.FillFromStruct, hfound, run_ok_bind] at hfilled
      injection hfilled with hfilled
      rw [← hset, ResourceItem.GetRIA] at hria
      injection hria with hria
      refine ⟨inside.1, ?_, ?_⟩
      · rw [← h, ← hset]
        rfl
      · refine @hencode made ?_
        rw [← hria, ← hfilled]
        rfl
    · intro item arrays hp
      rw [hp, ResourceItem.SetValue] at hset
      obtain ⟨filled, hfilled, hset⟩ := bind_eq_ok.mp hset
      injection hset with hset
      rw [ResourceItemArray.FillFromStruct, hfound, run_ok_bind] at hfilled
      injection hfilled with hfilled
      rw [← hset, ResourceItem.GetRIA, List.getLast?_concat] at hria
      injection hria with hria
      refine ⟨inside.1, ?_, ?_⟩
      · rw [← h, ← hset]
        show ResourceItem.structArray item ((arrays ++ [filled.1]).dropLast ++ [inside.1]) = _
        rw [List.dropLast_concat]
      · refine @hencode made ?_
        rw [← hria, ← hfilled]
        rfl

theorem elements_built : ∀ (elements : List BodyElement) {p : ResourceItem} {made : ℕ} {done : ResourceItem × ℕ}
    {item : StructArrayStructItem} {arrays : List ResourceItemArray}, elementsFit structs elements →
    p = .structArray item arrays → parseElements conv structs memory elements p made = .ok done →
    ∃ more, done.1 = .structArray item (arrays ++ more) ∧ more.length = elements.length ∧
      streamArrays conv (addDefaultsEach more) = encodeElements conv structs aId elements
  | [], p, made, done, item, arrays, hfits, hp, h => by
    rw [parseElements] at h
    injection h with h
    rw [← h]
    exact ⟨[], by rw [List.append_nil]; exact hp, rfl, rfl⟩
  | element :: elements, p, made, done, item, arrays, hfits, hp, h => by
    rw [parseElements] at h
    obtain ⟨done', hdone', h⟩ := bind_eq_ok.mp h
    obtain ⟨ria, hria, hstream⟩ := (element_built element hfits.1 hdone').2 item arrays hp
    obtain ⟨more, hmore, hlen, hrest⟩ := elements_built elements hfits.2 hria h
    refine ⟨ria :: more, ?_, ?_, ?_⟩
    · rw [hmore, List.append_assoc]
      rfl
    · rw [List.length_cons, List.length_cons, hlen]
    · rw [encodeElements, ← hstream, ← hrest, ← streamArrays_cons]
      obtain ⟨iLenType, items⟩ := ria
      rfl

end

end Parse

/-! ### The resource -/

section Resource

variable {conv : Conversions} {structs : List StructHeader} {memory : ℕ → UInt64} {structName : String}
  {pSH : StructHeader} {body : List BodyItem} {aId : UInt64} {xs : List Item}

theorem resourceStream_eq_encodeFields (hfound : StructHeaderArray.Find structs structName = .ok pSH)
    (hfits : bodyFits structs body pSH.iSIA)
    (h : resourceStream conv structs memory structName body aId = .ok xs) :
    encodeFields conv aId (encodeBody conv structs aId body) pSH.iSIA = .ok xs := by
  obtain ⟨ria, hria, hstream⟩ := bind_eq_ok.mp h
  obtain ⟨filled, hfill, hria⟩ := bind_eq_ok.mp hria
  obtain ⟨⟨⟨iLenType, items⟩, made⟩, hdone, hria⟩ := bind_eq_ok.mp hria
  rw [ResourceItemArray.FillFromStruct, hfound, run_ok_bind] at hfill
  injection hfill with hfill
  injection hria with hria
  have hnew : List.Forall₂ (Built conv structs aId []) pSH.iSIA filled.1.items := by
    rw [← hfill]
    exact newItems_built memory pSH.iSIA 0
  have hnone : ∀ item ∈ body, item.label ∉ ([] : List BodyItem).map BodyItem.label := fun _ _ => List.not_mem_nil
  obtain ⟨-, hbuilt⟩ := body_built body pSH.distinct hnew hnone hfits hdone
  rw [← streamItems_built (bodyFits_iff.mp hfits).1 hbuilt, ← hstream, ← hria]
  rfl

theorem encodeFields_eq_ok {given : List (String × Encoding)} {fields : List StructItem}
    (h : encodeFields conv aId given fields = .ok xs) :
    ∃ parts, List.Forall₂ (fun field part => encodeField conv aId given field = .ok part) fields parts ∧
      xs = parts.flatten := by
  induction fields generalizing xs with
  | nil =>
    injection h with h
    exact ⟨[], .nil, h.symm⟩
  | cons field fields ih =>
    rw [encodeFields] at h
    obtain ⟨front, hfront, h⟩ := bind_eq_ok.mp h
    obtain ⟨rest, hrest, h⟩ := bind_eq_ok.mp h
    injection h with h
    obtain ⟨parts, hparts, heq⟩ := ih hrest
    refine ⟨front :: parts, .cons hfront hparts, ?_⟩
    rw [← h, List.flatten_cons, heq]

theorem element_encode_perm {inner inner' : List BodyItem} (hdistinct : (inner.map BodyItem.label).Nodup)
    (hperm : inner.Perm inner') (name : String) :
    (BodyElement.mk name inner').encode conv structs aId = (BodyElement.mk name inner).encode conv structs aId := by
  rw [BodyElement.encode, BodyElement.encode]
  refine bind_congr ?_
  intro pSH
  rw [encodeFields_perm hdistinct hperm]

/-- The bytes of a resource are the encodings of its fields in the order of the declaration, in whatever order the
body and the bodies inside it give the fields. -/
theorem resourceStream_fields (names : List (String × UInt64))
    (hfound : StructHeaderArray.Find structs structName = .ok pSH) (hfits : bodyFits structs body pSH.iSIA)
    (haccepted : resourceStream conv structs memory structName body aId = .ok xs) :
    (∃ parts, List.Forall₂ (fun field part =>
        encodeField conv aId (encodeBody conv structs aId body) field = .ok part) pSH.iSIA parts ∧
      uncompressed names xs = layout 0 (parts.flatten.flatMap (Item.pieces names))) ∧
    (∀ body' memory' ys, body.Perm body' →
      resourceStream conv structs memory' structName body' aId = .ok ys → ys = xs) ∧
    ∀ name inner inner', (inner.map BodyItem.label).Nodup → inner.Perm inner' →
      (BodyElement.mk name inner').encode conv structs aId = (BodyElement.mk name inner).encode conv structs aId := by
  have hencode := resourceStream_eq_encodeFields hfound hfits haccepted
  obtain ⟨hdistinct, hkinds⟩ := bodyFits_iff.mp hfits
  refine ⟨?_, ?_, ?_⟩
  · obtain ⟨parts, hparts, heq⟩ := encodeFields_eq_ok hencode
    exact ⟨parts, hparts, by rw [uncompressed, heq]⟩
  · intro body' memory' ys hperm haccepted'
    have hfits' : bodyFits structs body' pSH.iSIA := by
      refine bodyFits_iff.mpr ⟨(hperm.map BodyItem.label).nodup_iff.mp hdistinct, ?_⟩
      intro item hitem
      exact hkinds item (hperm.mem_iff.mpr hitem)
    have hencode' := resourceStream_eq_encodeFields hfound hfits' haccepted'
    rw [encodeFields_perm hdistinct hperm, hencode] at hencode'
    exact (Except.ok.inj hencode').symm
  · intro name inner inner' hdistinct' hperm
    exact element_encode_perm hdistinct' hperm name

end Resource

/-! ### A structure in a resource -/

/-- `STRUCT INNER BYTE { BYTE b; }`. -/
def inner : StructHeader where
  iLabel := "INNER"
  iSIA := [.simple ⟨"b", .L_BYTE, SimpleStructItem.default .L_BYTE, ""⟩]
  iLenType := some .L_BYTE
  distinct := by decide

/-- `STRUCT EMPTY BYTE { }`. -/
def emptyStruct : StructHeader where
  iLabel := "EMPTY"
  iSIA := []
  iLenType := some .L_BYTE
  distinct := List.nodup_nil

/-- `STRUCT OUTER { STRUCT part; BYTE c; }`. -/
def outer : StructHeader where
  iLabel := "OUTER"
  iSIA := [.structType ⟨"part"⟩, .simple ⟨"c", .L_BYTE, SimpleStructItem.default .L_BYTE, ""⟩]
  iLenType := none
  distinct := by decide

/-- `{ c = 2; part = INNER { }; }`. -/
def outerBody : List BodyItem := [.simple_initialiser "c" "2", .struct_resource_item "part" (.mk "INNER" [])]

theorem outerBody_fits : bodyFits [inner, emptyStruct, outer] outerBody outer.iSIA := by
  refine ⟨by decide, ?_, by decide, ?_, trivial⟩
  · intro q hq hlabel
    rcases List.mem_cons.mp hq with rfl | hq
    · exact absurd hlabel (by decide)
    · rw [List.mem_singleton.mp hq]
      trivial
  · intro q hq hlabel
    rcases List.mem_cons.mp hq with rfl | hq
    · refine ⟨inner, rfl, ?_, trivial⟩
      intro q' hq'
      rw [List.mem_singleton.mp hq']
      rfl
    · rw [List.mem_singleton.mp hq] at hlabel
      exact absurd hlabel (by decide)

theorem outer_accepted : resourceStream directConversions [inner, emptyStruct, outer] (fun _ => 0) "OUTER" outerBody 1 =
    .ok [.StartOfBlockWithSizePrefix .L_BYTE, .StreamIn [0], .EndOfBlockWithSizePrefix, .StreamIn [2]] := by
  decide +kernel

theorem outer_fields :
    (∃ parts, List.Forall₂ (fun field part => encodeField directConversions 1
        (encodeBody directConversions [inner, emptyStruct, outer] 1 outerBody) field = .ok part) outer.iSIA parts ∧
      uncompressed [] [.StartOfBlockWithSizePrefix .L_BYTE, .StreamIn [0], .EndOfBlockWithSizePrefix, .StreamIn [2]] =
        layout 0 (parts.flatten.flatMap (Item.pieces []))) ∧
    (∀ body' memory' ys, outerBody.Perm body' →
      resourceStream directConversions [inner, emptyStruct, outer] memory' "OUTER" body' 1 = .ok ys →
      ys = [.StartOfBlockWithSizePrefix .L_BYTE, .StreamIn [0], .EndOfBlockWithSizePrefix, .StreamIn [2]]) ∧
    ∀ name inner₁ inner₂, (inner₁.map BodyItem.label).Nodup → inner₁.Perm inner₂ →
      (BodyElement.mk name inner₂).encode directConversions [inner, emptyStruct, outer] 1 =
        (BodyElement.mk name inner₁).encode directConversions [inner, emptyStruct, outer] 1 :=
  resourceStream_fields [] rfl outerBody_fits outer_accepted

/-- A structure without members has no size in front, though its STRUCT gives a type for it. -/
theorem emptyStruct_noPrefix :
    resourceStream directConversions [inner, emptyStruct, outer] (fun _ => 0) "OUTER"
      [.struct_resource_item "part" (.mk "EMPTY" [])] 1 = .ok [.StreamIn [0]] ∧
    uncompressed [] [.StreamIn [0]] = [0] ∧
    uncompressed [] (withSizePrefix emptyStruct.iLenType [] ++ [.StreamIn [0]]) = [0, 0] := by
  refine ⟨?_, rfl, rfl⟩
  decide +kernel

end GnuPoc.Rcomp
