import GnuPoc.Rcomp.ResourceItem
import GnuPoc.Rcomp.WriteFile
import Mathlib.Algebra.BigOperators.Group.List.Basic

/-!
# GnuPoc.Rcomp.FixedSize — the size of a resource whose STRUCT fixes it

The members of such a STRUCT are numbers, links and arrays with a number of elements.  A RESOURCE writes a
number, a link with a value and an SRLINK always; what it writes for an array goes by the values given.  So the
resource has the declared size exactly if what is missing and what is too much come to the same.
-/

namespace GnuPoc.Rcomp

open GnuPoc.Lib

/-! ### Declared sizes -/

/-- The type of the member or of its elements. -/
def StructItem.itemType? : StructItem → Option ItemType
  | .simple item => some item.iItemType
  | .array item => some item.iItemType
  | _ => none

/-- The number in an `iSize`, as the grammar reads it for the initialisers. -/
def declaredNumber (iSize : String) : ℕ :=
  match ConvertToNatural iSize with
  | .ok n => n.iULongValue.toNat
  | .error _ => 0

/-- The number of values that the declaration asks for. -/
def StructItem.number : StructItem → ℕ
  | .simple _ => 1
  | .array item => declaredNumber item.iSize
  | _ => 0

/-- The size in `RCTypeArray`. -/
def StructItem.unit (p : StructItem) : ℕ := (p.itemType?.map RCTypeArray.GetSize).getD 0

/-- A member with a size that its declaration fixes. -/
def StructItem.isFixed : StructItem → Bool
  | .simple item => !item.iItemType.isText
  | .array item => !item.iItemType.isText && item.iSize.length ≠ 0
  | _ => false

def declaredSize (iSIA : List StructItem) : ℕ := (iSIA.map fun p => p.unit * p.number).sum

/-! ### Values given -/

def BodyItem.value? (label : String) : BodyItem → Option String
  | .simple_initialiser label' value => if label' = label then some value else none
  | _ => none

def BodyItem.values? (label : String) : BodyItem → Option (List String)
  | .simple_initialiser_list label' values => if label' = label then some values else none
  | _ => none

/-- What a body gives last. -/
def lastGiven {α : Type} (given : BodyItem → Option α) (body : List BodyItem) : Option α :=
  (body.filterMap given).getLast?

/-- The value that a body gives a member last. -/
def lastValue (label : String) (body : List BodyItem) : Option String := lastGiven (BodyItem.value? label) body

def lastValues (label : String) (body : List BodyItem) : Option (List String) :=
  lastGiven (BodyItem.values? label) body

theorem lastGiven_some {α : Type} {given : BodyItem → Option α} {item : BodyItem} {a : α} (h : given item = some a)
    (body : List BodyItem) : lastGiven given (body ++ [item]) = some a := by
  rw [lastGiven, List.filterMap_append, List.filterMap_cons_some h, List.filterMap_nil, List.getLast?_concat]

theorem lastGiven_none {α : Type} {given : BodyItem → Option α} {item : BodyItem} (h : given item = none)
    (body : List BodyItem) : lastGiven given (body ++ [item]) = lastGiven given body := by
  rw [lastGiven, List.filterMap_append, List.filterMap_cons_none h, List.filterMap_nil, List.append_nil]
  rfl

/-- The value of a member, that of the declaration if none is given. -/
def SimpleStructItem.value (item : SimpleStructItem) (body : List BodyItem) : String :=
  (lastValue item.iLabel body).getD item.iDefault

/-- The values of an array, with those of the declaration behind them. -/
def ArrayStructItem.values (item : ArrayStructItem) (body : List BodyItem) : List String :=
  let given := (lastValues item.iLabel body).getD []
  given ++ item.iDefaults.drop given.length

/-- The number of values that a member is streamed out with: an SRLINK needs none, an empty value is none. -/
def StructItem.supplied (body : List BodyItem) : StructItem → ℕ
  | .simple item => if item.iItemType = .L_SRLINK ∨ (item.value body).length ≠ 0 then 1 else 0
  | .array item => ((item.values body).filter fun value => value.length ≠ 0).length
  | _ => 0

/-- The bytes of the values that are missing. -/
def missingBytes (body : List BodyItem) (iSIA : List StructItem) : ℕ :=
  (iSIA.map fun p => p.unit * (p.number - p.supplied body)).sum

/-- The bytes of the values that are too many. -/
def surplusBytes (body : List BodyItem) (iSIA : List StructItem) : ℕ :=
  (iSIA.map fun p => p.unit * (p.supplied body - p.number)).sum

/-! ### Bytes of items -/

/-- The items take `n` bytes wherever they begin. -/
def Occupies (xs : List Item) (n : ℕ) : Prop :=
  ∀ names offset, total offset (xs.flatMap (Item.pieces names)) = offset + n

theorem Occupies.length {xs : List Item} {n : ℕ} (h : Occupies xs n) (names : List (String × UInt64)) :
    (uncompressed names xs).length = n := by
  have htotal := h names 0
  rw [total_eq, Nat.zero_add, Nat.zero_add] at htotal
  exact htotal

theorem Occupies.nil : Occupies [] 0 := by
  intro names offset
  rfl

theorem Occupies.append {xs ys : List Item} {m n : ℕ} (hx : Occupies xs m) (hy : Occupies ys n) :
    Occupies (xs ++ ys) (m + n) := by
  intro names offset
  have hfront := hx names offset
  have hback := hy names (offset + m)
  rw [total] at hfront
  rw [total] at hback
  rw [List.flatMap_append, total, List.foldl_append, hfront, hback, Nat.add_assoc]

theorem occupies_streamIn (bytes : Bytes) : Occupies [.StreamIn bytes] bytes.length := by
  intro names offset
  rfl

theorem occupies_wordLink (name : String) : Occupies [.WordLink name] 2 := by
  intro names offset
  show offset + (linkBytes names name .L_WORD).length = _
  rw [linkBytes_length]
  rfl

theorem occupies_longLink (name : String) : Occupies [.LongLink name] 4 := by
  intro names offset
  show offset + (linkBytes names name .L_LONG).length = _
  rw [linkBytes_length]
  rfl

theorem length_numberBytes {type : DataType} {value : String} {bytes : Bytes}
    (h : numberBytes type value = .ok bytes) : bytes.length = GetSize type := by
  obtain ⟨n, -, h⟩ := bind_eq_ok.mp h
  injection h with h
  rw [← h, NumericValue.length_iData]

theorem occupies_number {type : DataType} {value : String} {xs : List Item}
    (h : (do
      let bytes ← numberBytes type value
      .ok [.StreamIn bytes] : Run (List Item)) = .ok xs) : Occupies xs (GetSize type) := by
  obtain ⟨bytes, hbytes, h⟩ := bind_eq_ok.mp h
  injection h with h
  rw [← h, ← length_numberBytes hbytes]
  exact occupies_streamIn bytes

theorem assert_ok {condition : Bool} {u : Unit} (h : assert condition = .ok u) : condition = true := by
  unfold assert at h
  by_contra hc
  rw [if_neg hc] at h
  cases h

section Streaming

variable {conv : Conversions}

/-- A value takes the size of its type; without a value there are no bytes, except for an SRLINK. -/
theorem streamOutSingleValue_occupies {value : String} {link : UInt64} {type : ItemType} {xs : List Item}
    (hfixed : type.isText = false) (h : StreamOutSingleValue conv value link type = .ok xs) :
    Occupies xs (RCTypeArray.GetSize type * if type = .L_SRLINK ∨ value.length ≠ 0 then 1 else 0) := by
  have hgiven : ∀ {u : Unit}, assert (0 < value.length) = .ok u → value.length ≠ 0 := by
    intro u hu
    have hlt := of_decide_eq_true (assert_ok hu)
    omega
  cases type with
  | L_BYTE =>
    obtain ⟨u, hu, h⟩ := bind_eq_ok.mp h
    rw [if_pos (.inr (hgiven hu))]
    exact occupies_number h
  | L_WORD =>
    obtain ⟨u, hu, h⟩ := bind_eq_ok.mp h
    rw [if_pos (.inr (hgiven hu))]
    exact occupies_number h
  | L_LONG =>
    obtain ⟨u, hu, h⟩ := bind_eq_ok.mp h
    rw [if_pos (.inr (hgiven hu))]
    exact occupies_number h
  | L_DOUBLE =>
    obtain ⟨u, hu, h⟩ := bind_eq_ok.mp h
    rw [if_pos (.inr (hgiven hu))]
    injection h with h
    rw [← h]
    have hbytes := occupies_streamIn (leBytes 8 (conv.atof value).toNat)
    rw [length_leBytes] at hbytes
    exact hbytes
  | L_SRLINK =>
    injection h with h
    rw [if_pos (.inl rfl), ← h]
    exact occupies_streamIn _
  | L_LINK =>
    rw [StreamOutSingleValue] at h
    by_cases hempty : value.length = 0
    · rw [if_pos hempty] at h
      injection h with h
      rw [if_neg (by simp [hempty]), ← h]
      exact .nil
    · rw [if_neg hempty] at h
      rw [if_pos (.inr hempty)]
      split at h
      · exact occupies_number h
      · injection h with h
        rw [← h]
        exact occupies_wordLink value
  | L_LLINK =>
    rw [StreamOutSingleValue] at h
    by_cases hempty : value.length = 0
    · rw [if_pos hempty] at h
      injection h with h
      rw [if_neg (by simp [hempty]), ← h]
      exact .nil
    · rw [if_neg hempty] at h
      rw [if_pos (.inr hempty)]
      split at h
      · exact occupies_number h
      · injection h with h
        rw [← h]
        exact occupies_longLink value
  | _ => cases hfixed

theorem streamValues_occupies {type : ItemType} (hfixed : type.isText = false) :
    ∀ {values : List String} {xs : List Item}, streamValues conv type values = .ok xs →
      Occupies xs (RCTypeArray.GetSize type * (values.filter fun value => value.length ≠ 0).length)
  | [], xs, h => by
    injection h with h
    rw [← h]
    exact .nil
  | value :: values, xs, h => by
    obtain ⟨u, hu, h⟩ := bind_eq_ok.mp h
    obtain ⟨front, hfront, h⟩ := bind_eq_ok.mp h
    obtain ⟨rest, hrest, h⟩ := bind_eq_ok.mp h
    injection h with h
    have hlink : type ≠ .L_SRLINK := of_decide_eq_true (assert_ok hu)
    have hone := streamOutSingleValue_occupies hfixed hfront
    have hmore := streamValues_occupies hfixed hrest
    have hsum := hone.append hmore
    rw [h, ← Nat.mul_add] at hsum
    convert hsum using 2
    by_cases hempty : value.length = 0
    · rw [List.filter_cons_of_neg (by simp [hempty]), if_neg (by simp [hempty, hlink]), Nat.zero_add]
    · rw [List.filter_cons_of_pos (by simp [hempty]), if_pos (.inr hempty), List.length_cons, Nat.add_comm]

end Streaming

/-! ### What the body leaves in the items -/

/-- The item of a member when `body` is parsed. -/
inductive Holds (body : List BodyItem) : StructItem → ResourceItem → Prop
  | simple (item : SimpleStructItem) (link : UInt64) : Holds body (.simple item)
      (.simple item ((lastValue item.iLabel body).getD "") (lastValue item.iLabel body).isSome link)
  | array (item : ArrayStructItem) : Holds body (.array item)
      (.array item ((lastValues item.iLabel body).getD []))

theorem Holds.iLabel {body : List BodyItem} {q : StructItem} {p : ResourceItem} (h : Holds body q p) :
    p.iLabel = q.iLabel := by
  cases h with
  | simple item link => rfl
  | array item => rfl

theorem Holds.keep {body : List BodyItem} {q : StructItem} {p : ResourceItem} {item : BodyItem} (h : Holds body q p)
    (hvalue : item.value? q.iLabel = none) (hvalues : item.values? q.iLabel = none) : Holds (body ++ [item]) q p := by
  cases h with
  | simple member link =>
    have hlast : lastValue member.iLabel (body ++ [item]) = lastValue member.iLabel body := lastGiven_none hvalue body
    rw [← hlast]
    exact .simple member link
  | array member =>
    have hlast : lastValues member.iLabel (body ++ [item]) = lastValues member.iLabel body :=
      lastGiven_none hvalues body
    rw [← hlast]
    exact .array member

section Parsing

variable {conv : Conversions} {structs : List StructHeader} {memory : ℕ → UInt64}

theorem element_parse_holds {body : List BodyItem} {q : StructItem} {p : ResourceItem} {element : BodyElement}
    {made : ℕ} {done : ResourceItem × ℕ} (hholds : Holds body q p) :
    element.parse conv structs memory p made ≠ .ok done := by
  intro h
  obtain ⟨structName, inside⟩ := element
  rw [BodyElement.parse] at h
  obtain ⟨done', hdone', h⟩ := bind_eq_ok.mp h
  obtain ⟨ria, hria, h⟩ := bind_eq_ok.mp h
  cases hholds with
  | simple item link =>
    rw [ResourceItem.SetValue] at hdone'
    obtain ⟨limit, -, hdone'⟩ := bind_eq_ok.mp hdone'
    split at hdone'
    · cases hdone'
    · injection hdone' with hdone'
      rw [← hdone'] at hria
      cases hria
  | array item => cases hdone'

theorem bodyItem_parse_holds {front : List BodyItem} {item : BodyItem} {iSIA : List StructItem}
    {ria : ResourceItemArray} {made : ℕ} {done : ResourceItemArray × ℕ}
    (hdistinct : (iSIA.map StructItem.iLabel).Nodup) (hholds : List.Forall₂ (Holds front) iSIA ria.items)
    (h : item.parse conv structs memory ria made = .ok done) :
    List.Forall₂ (Holds (front ++ [item])) iSIA done.1.items := by
  have hlabel : ∀ q p, Holds front q p → p.iLabel = q.iLabel := fun q p hqp => hqp.iLabel
  cases item with
  | simple_initialiser label value =>
    rw [BodyItem.parse] at h
    refine set_forall₂ hlabel ?_ ?_ hholds hdistinct h
    · intro q p done' hqp hq hdone'
      have hgiven : BodyItem.value? q.iLabel (.simple_initialiser label value) = some value := if_pos hq.symm
      cases hqp with
      | simple member link =>
        rw [ResourceItem.SetValue] at hdone'
        obtain ⟨limit, -, hdone'⟩ := bind_eq_ok.mp hdone'
        split at hdone'
        · cases hdone'
        · injection hdone' with hdone'
          have hlast : lastValue member.iLabel (front ++ [.simple_initialiser label value]) = some value :=
            lastGiven_some hgiven front
          have hnow : Holds (front ++ [.simple_initialiser label value]) (.simple member) _ := .simple member link
          rw [hlast] at hnow
          rw [← hdone']
          exact hnow
      | array member => cases hdone'
    · intro q p hqp hq
      exact hqp.keep (if_neg fun heq => hq heq.symm) rfl
  | no_initialisers label =>
    injection h with h
    rw [← h]
    exact hholds.imp fun q p hqp => hqp.keep rfl rfl
  | simple_initialiser_list label values =>
    rw [BodyItem.parse] at h
    refine set_forall₂ hlabel ?_ ?_ hholds hdistinct h
    · intro q p done' hqp hq hdone'
      obtain ⟨p', hp', hdone'⟩ := bind_eq_ok.mp hdone'
      have hgiven : BodyItem.values? q.iLabel (.simple_initialiser_list label values) = some values := if_pos hq.symm
      cases hqp with
      | simple member link => cases hp'
      | array member =>
        injection hp' with hp'
        injection hdone' with hdone'
        have hlast : lastValues member.iLabel (front ++ [.simple_initialiser_list label values]) = some values :=
          lastGiven_some hgiven front
        have hnow : Holds (front ++ [.simple_initialiser_list label values]) (.array member) _ := .array member
        rw [hlast] at hnow
        rw [← hdone']
        exact hnow
    · intro q p hqp hq
      exact hqp.keep rfl (if_neg fun heq => hq heq.symm)
  | struct_resource_item label element =>
    rw [BodyItem.parse] at h
    refine set_forall₂ hlabel ?_ ?_ hholds hdistinct h
    · intro q p done' hqp hq hdone'
      exact absurd hdone' (element_parse_holds hqp)
    · intro q p hqp hq
      exact hqp.keep rfl rfl
  | struct_array_resource_item label first rest =>
    rw [BodyItem.parse] at h
    refine set_forall₂ hlabel ?_ ?_ hholds hdistinct h
    · intro q p done' hqp hq hdone'
      obtain ⟨first', hfirst, -⟩ := bind_eq_ok.mp hdone'
      exact absurd hfirst (element_parse_holds hqp)
    · intro q p hqp hq
      exact hqp.keep rfl rfl

theorem parseBody_holds {iSIA : List StructItem} (hdistinct : (iSIA.map StructItem.iLabel).Nodup)
    (body : List BodyItem) : ∀ {front : List BodyItem} {ria : ResourceItemArray} {made : ℕ}
    {done : ResourceItemArray × ℕ}, List.Forall₂ (Holds front) iSIA ria.items →
      parseBody conv structs memory body ria made = .ok done →
      List.Forall₂ (Holds (front ++ body)) iSIA done.1.items := by
  induction body with
  | nil =>
    intro front ria made done hholds h
    rw [parseBody] at h
    injection h with h
    rw [← h, List.append_nil]
    exact hholds
  | cons item body ih =>
    intro front ria made done hholds h
    rw [parseBody] at h
    obtain ⟨done', hdone', h⟩ := bind_eq_ok.mp h
    rw [List.append_cons]
    exact ih (bodyItem_parse_holds hdistinct hholds hdone') h

end Parsing

/-! ### The whole resource -/

/-- The item of a member when the defaults are in. -/
inductive WithDefaults (body : List BodyItem) : StructItem → ResourceItem → Prop
  | simple (item : SimpleStructItem) (valueSet : Bool) (link : UInt64) : WithDefaults body (.simple item)
      (.simple item (item.value body) valueSet link)
  | array (item : ArrayStructItem) : WithDefaults body (.array item) (.array item (item.values body))

theorem Holds.addDefault {body : List BodyItem} {q : StructItem} {p : ResourceItem} (h : Holds body q p) :
    WithDefaults body q p.AddDefault := by
  cases h with
  | simple item link =>
    have hvalue : (if (lastValue item.iLabel body).isSome then (lastValue item.iLabel body).getD ""
        else item.iDefault) = item.value body := by
      unfold SimpleStructItem.value
      cases lastValue item.iLabel body with
      | none => rfl
      | some value => rfl
    rw [ResourceItem.AddDefault, hvalue]
    exact .simple item _ link
  | array item =>
    rw [ResourceItem.AddDefault]
    exact .array item

theorem WithDefaults.setSRLink {body : List BodyItem} {q : StructItem} {p : ResourceItem} (aId : UInt64)
    (h : WithDefaults body q p) : WithDefaults body q (p.SetSRLink aId) := by
  cases h with
  | simple item valueSet link => exact .simple item valueSet _
  | array item => exact .array item

theorem holds_new (memory : ℕ → UInt64) {iSIA : List StructItem} (hfixed : ∀ p ∈ iSIA, p.isFixed = true)
    (made : ℕ) :
    List.Forall₂ (Holds []) iSIA (iSIA.mapIdx fun i p => p.NewResourceItem (memory (made + i))) := by
  refine newItems_forall₂ memory ?_ made
  intro q hmem i
  have hq := hfixed q hmem
  cases q with
  | simple item => exact .simple item _
  | array item => exact .array item
  | structType item => cases hq
  | structArray item => cases hq

section Size

variable {conv : Conversions} {structs : List StructHeader} {memory : ℕ → UInt64}

theorem withDefaults_occupies {body : List BodyItem} {q : StructItem} {p : ResourceItem} {xs : List Item}
    (hfixed : q.isFixed = true) (hdefaults : WithDefaults body q p) (h : p.StreamOut conv = .ok xs) :
    Occupies xs (q.unit * q.supplied body) := by
  cases hdefaults with
  | simple item valueSet link =>
    have htext : item.iItemType.isText = false := Bool.not_eq_true' _ ▸ hfixed
    rw [ResourceItem.StreamOut] at h
    exact streamOutSingleValue_occupies htext h
  | array item =>
    obtain ⟨htext, hsize⟩ := Bool.and_eq_true_iff.mp hfixed
    rw [Bool.not_eq_true'] at htext
    rw [ResourceItem.StreamOut, if_neg (of_decide_eq_true hsize)] at h
    obtain ⟨rest, hrest, h⟩ := bind_eq_ok.mp h
    injection h with h
    rw [← h]
    exact streamValues_occupies htext hrest

theorem streamItems_occupies {body : List BodyItem} {iSIA : List StructItem} {items : List ResourceItem}
    (hdefaults : List.Forall₂ (WithDefaults body) iSIA items) :
    ∀ {xs : List Item}, (∀ q ∈ iSIA, q.isFixed = true) → streamItems conv items = .ok xs →
      Occupies xs (iSIA.map fun q => q.unit * q.supplied body).sum := by
  induction hdefaults with
  | nil =>
    intro xs hfixed h
    rw [streamItems] at h
    injection h with h
    rw [← h]
    exact .nil
  | @cons q p iSIA items hqp hrest ih =>
    intro xs hfixed h
    rw [streamItems] at h
    obtain ⟨front, hfront, h⟩ := bind_eq_ok.mp h
    obtain ⟨back, hback, h⟩ := bind_eq_ok.mp h
    injection h with h
    rw [← h, List.map_cons, List.sum_cons]
    exact (withDefaults_occupies (hfixed q (List.mem_cons_self ..)) hqp hfront).append
      (ih (fun q' hq' => hfixed q' (List.mem_cons_of_mem _ hq')) hback)

/-- The resource has the bytes of the values that its members are supplied with. -/
theorem resourceStream_occupies {structName : String} {pSH : StructHeader} {body : List BodyItem} {aId : UInt64}
    {xs : List Item} (hfound : StructHeaderArray.Find structs structName = .ok pSH)
    (hfixed : ∀ q ∈ pSH.iSIA, q.isFixed = true)
    (h : resourceStream conv structs memory structName body aId = .ok xs) :
    Occupies xs (pSH.iSIA.map fun q => q.unit * q.supplied body).sum := by
  obtain ⟨ria, hria, hstream⟩ := bind_eq_ok.mp h
  obtain ⟨filled, hfill, hria⟩ := bind_eq_ok.mp hria
  obtain ⟨done, hdone, hria⟩ := bind_eq_ok.mp hria
  rw [ResourceItemArray.FillFromStruct, hfound, run_ok_bind] at hfill
  injection hfill with hfill
  injection hria with hria
  have hnew : List.Forall₂ (Holds []) pSH.iSIA filled.1.items := by
    rw [← hfill]
    exact holds_new memory hfixed 0
  have hbody := parseBody_holds pSH.distinct body hnew hdone
  have hdefaults : List.Forall₂ (WithDefaults body) pSH.iSIA (SetResourceId aId ria).items := by
    obtain ⟨⟨iLenType, items⟩, made⟩ := done
    rw [← hria]
    show List.Forall₂ (WithDefaults body) pSH.iSIA ((addDefaults items).map (ResourceItem.SetSRLink aId))
    rw [addDefaults_eq_map, List.map_map, List.forall₂_map_right_iff]
    refine hbody.imp ?_
    intro q p hqp
    exact hqp.addDefault.setSRLink aId
  exact streamItems_occupies hdefaults hfixed hstream

end Size

/-- What is declared and what is supplied differ by what is missing and what is too much. -/
theorem supplied_add_missing (body : List BodyItem) (iSIA : List StructItem) :
    (iSIA.map fun q => q.unit * q.supplied body).sum + missingBytes body iSIA =
      declaredSize iSIA + surplusBytes body iSIA := by
  induction iSIA with
  | nil => rfl
  | cons q iSIA ih =>
    have hone : q.unit * q.supplied body + q.unit * (q.number - q.supplied body) =
        q.unit * q.number + q.unit * (q.supplied body - q.number) := by
      rw [← Nat.mul_add, ← Nat.mul_add]
      congr 1
      omega
    simp only [missingBytes, surplusBytes, declaredSize, List.map_cons, List.sum_cons] at ih ⊢
    omega

/-- A resource has the declared size exactly if the values left out and the values too many have the same size. -/
theorem resourceStream_declaredSize_iff {conv : Conversions} {structs : List StructHeader} {memory : ℕ → UInt64}
    {structName : String} {pSH : StructHeader} {body : List BodyItem} {aId : UInt64} {xs : List Item}
    (names : List (String × UInt64)) (hfound : StructHeaderArray.Find structs structName = .ok pSH)
    (hfixed : ∀ q ∈ pSH.iSIA, q.isFixed = true)
    (haccepted : resourceStream conv structs memory structName body aId = .ok xs) :
    (uncompressed names xs).length = declaredSize pSH.iSIA ↔
      missingBytes body pSH.iSIA = surplusBytes body pSH.iSIA := by
  have hlength := (resourceStream_occupies hfound hfixed haccepted).length names
  have hsum := supplied_add_missing body pSH.iSIA
  rw [hlength]
  constructor
  · intro h
    omega
  · intro h
    omega

/-! ### A menu -/

/-- Text in a character set whose characters are the first of Unicode. -/
def directConversions : Conversions where
  Export := fun s => s.toList.map fun c => UInt16.ofNat c.toNat
  ExportLength := String.length
  atof := fun _ => 0

/-- `STRUCT MENU { LLINK hotkeys; LONG flags; WORD sizes[2]; }`. -/
def menu : StructHeader where
  iLabel := "MENU"
  iSIA := [.simple ⟨"hotkeys", .L_LLINK, SimpleStructItem.default .L_LLINK, ""⟩,
    .simple ⟨"flags", .L_LONG, SimpleStructItem.default .L_LONG, ""⟩, .array ⟨"sizes", .L_WORD, "2", [], none⟩]
  iLenType := none
  distinct := by decide

theorem menu_isFixed : ∀ q ∈ menu.iSIA, q.isFixed = true := by decide +kernel

theorem menu_found : StructHeaderArray.Find [menu] "MENU" = .ok menu := rfl

theorem menu_accepted : resourceStream directConversions [menu] (fun _ => 0) "MENU"
    [.simple_initialiser "hotkeys" "r_keys", .simple_initialiser_list "sizes" ["3", "-1"]] 1 =
      .ok [.LongLink "r_keys", .StreamIn [0, 0, 0, 0], .StreamIn [3, 0], .StreamIn [255, 255]] := by
  decide +kernel

/-- A link and two sizes are given; the defaults do the rest. -/
theorem menu_declaredSize_iff :
    (uncompressed [] [.LongLink "r_keys", .StreamIn [0, 0, 0, 0], .StreamIn [3, 0], .StreamIn [255, 255]]).length =
        declaredSize menu.iSIA ↔
      missingBytes [.simple_initialiser "hotkeys" "r_keys", .simple_initialiser_list "sizes" ["3", "-1"]] menu.iSIA =
        surplusBytes [.simple_initialiser "hotkeys" "r_keys", .simple_initialiser_list "sizes" ["3", "-1"]]
          menu.iSIA :=
  resourceStream_declaredSize_iff [] menu_found menu_isFixed menu_accepted

/-- Without the link and the sizes the resource has four bytes of its twelve. -/
theorem menu_short : (∀ q ∈ menu.iSIA, q.isFixed = true) ∧
    resourceStream directConversions [menu] (fun _ => 0) "MENU" [.simple_initialiser "flags" "7"] 1 =
      .ok [.StreamIn [7, 0, 0, 0]] ∧
    (uncompressed [] [.StreamIn [7, 0, 0, 0]]).length = 4 ∧ declaredSize menu.iSIA = 12 := by
  refine ⟨menu_isFixed, ?_, ?_, ?_⟩
  · decide +kernel
  · rfl
  · decide +kernel

end GnuPoc.Rcomp
