import GnuPoc.Rcomp.ResourceItem

/-!
# GnuPoc.Rcomp.SRLink — the SRLINK members of a resource

`SetResourceId` hands the id to the items of the resource itself; a STRUCT or a STRUCT array does not hand it on.
An SRLINK inside one is streamed out with what its memory held.
-/

namespace GnuPoc.Rcomp

open GnuPoc.Lib

/-! ### Every SRLINK of a resource -/

mutual

/-- The item when every SRLINK in it holds the id. -/
def ResourceItem.setAllLinks (aId : UInt64) : ResourceItem → ResourceItem
  | .simple item value valueSet link =>
    .simple item value valueSet (if item.iItemType = .L_SRLINK then aId else link)
  | .array item values => .array item values
  | .structType item (.mk iLenType items) => .structType item (.mk iLenType (setLinksOfItems aId items))
  | .structArray item arrays => .structArray item (setLinksOfArrays aId arrays)

def setLinksOfItems (aId : UInt64) : List ResourceItem → List ResourceItem
  | [] => []
  | p :: items => p.setAllLinks aId :: setLinksOfItems aId items

def setLinksOfArrays (aId : UInt64) : List ResourceItemArray → List ResourceItemArray
  | [] => []
  | .mk iLenType items :: arrays => .mk iLenType (setLinksOfItems aId items) :: setLinksOfArrays aId arrays

end

mutual

/-- What the SRLINKs of an item hold. -/
def ResourceItem.links : ResourceItem → List UInt64
  | .simple item _ _ link => if item.iItemType = .L_SRLINK then [link] else []
  | .array _ _ => []
  | .structType _ (.mk _ items) => linksOfItems items
  | .structArray _ arrays => linksOfArrays arrays

def linksOfItems : List ResourceItem → List UInt64
  | [] => []
  | p :: items => p.links ++ linksOfItems items

def linksOfArrays : List ResourceItemArray → List UInt64
  | [] => []
  | .mk _ items :: arrays => linksOfItems items ++ linksOfArrays arrays

end

/-- What the SRLINKs inside an item of the resource hold. -/
def ResourceItem.linksInside : ResourceItem → List UInt64
  | .simple _ _ _ _ => []
  | p => p.links

/-- What the SRLINKs below the items of the resource hold. -/
def ResourceItemArray.nestedLinks (ria : ResourceItemArray) : List UInt64 :=
  ria.items.flatMap ResourceItem.linksInside

/-- The resource with the id in every SRLINK. -/
def ResourceItemArray.setAllLinks (aId : UInt64) : ResourceItemArray → ResourceItemArray
  | .mk iLenType items => .mk iLenType (setLinksOfItems aId items)

/-- The 32 bits of every one are those of the id. -/
def AllAre (aId : UInt64) (links : List UInt64) : Prop := ∀ link ∈ links, link.toUInt32 = aId.toUInt32

theorem allAre_nil (aId : UInt64) : AllAre aId [] := by
  intro link h
  cases h

theorem allAre_append {aId : UInt64} {xs ys : List UInt64} : AllAre aId (xs ++ ys) ↔ AllAre aId xs ∧ AllAre aId ys :=
  List.forall_mem_append

theorem allAre_singleton {aId link : UInt64} : AllAre aId [link] ↔ link.toUInt32 = aId.toUInt32 :=
  List.forall_mem_singleton

/-! ### Runs that differ in links only -/

/-- Both runs stop alike, or give lists of one length that are the same exactly if `P` holds. -/
def Alike (r r' : Run (List Item)) (P : Prop) : Prop :=
  (∃ e, r = .error e ∧ r' = .error e) ∨
    ∃ xs ys, r = .ok xs ∧ r' = .ok ys ∧ xs.length = ys.length ∧ (xs = ys ↔ P)

theorem Alike.refl (r : Run (List Item)) : Alike r r True := by
  cases r with
  | error e => exact .inl ⟨e, rfl, rfl⟩
  | ok xs => exact .inr ⟨xs, xs, rfl, rfl, rfl, iff_true_intro rfl⟩

theorem Alike.of_iff {r r' : Run (List Item)} {P Q : Prop} (h : Alike r r' P) (hPQ : P ↔ Q) : Alike r r' Q :=
  propext hPQ ▸ h

theorem Alike.map {r r' : Run (List Item)} {P : Prop} (h : Alike r r' P) (f : List Item → List Item)
    (hlength : ∀ xs ys, xs.length = ys.length → (f xs).length = (f ys).length)
    (hinj : ∀ xs ys, xs.length = ys.length → f xs = f ys → xs = ys) :
    Alike (r >>= fun xs => .ok (f xs)) (r' >>= fun xs => .ok (f xs)) P := by
  rcases h with ⟨e, rfl, rfl⟩ | ⟨xs, ys, rfl, rfl, hlen, hiff⟩
  · exact .inl ⟨e, rfl, rfl⟩
  · refine .inr ⟨f xs, f ys, rfl, rfl, hlength xs ys hlen, ?_⟩
    rw [← hiff]
    constructor
    · intro heq
      exact hinj xs ys hlen heq
    · intro heq
      rw [heq]

theorem Alike.append {r r' s s' : Run (List Item)} {P Q : Prop} (hr : Alike r r' P) (hs : Alike s s' Q) :
    Alike (r >>= fun xs => s >>= fun ys => .ok (xs ++ ys)) (r' >>= fun xs => s' >>= fun ys => .ok (xs ++ ys))
      (P ∧ Q) := by
  rcases hr with ⟨e, rfl, rfl⟩ | ⟨xs, xs', rfl, rfl, hx, hP⟩
  · exact .inl ⟨e, rfl, rfl⟩
  · rcases hs with ⟨e, rfl, rfl⟩ | ⟨ys, ys', rfl, rfl, hy, hQ⟩
    · exact .inl ⟨e, rfl, rfl⟩
    · refine .inr ⟨xs ++ ys, xs' ++ ys', rfl, rfl, ?_, ?_⟩
      · rw [List.length_append, List.length_append, hx, hy]
      · rw [← hP, ← hQ]
        exact ⟨fun heq => List.append_inj heq hx, fun heq => by rw [heq.1, heq.2]⟩

theorem leBytes_inj {k a b : ℕ} : leBytes k a = leBytes k b ↔ a % 256 ^ k = b % 256 ^ k := by
  constructor
  · intro h
    rw [← ofLE_leBytes, ← ofLE_leBytes, h]
  · intro h
    have ha := leBytes_ofLE (leBytes k a)
    have hb := leBytes_ofLE (leBytes k b)
    rw [length_leBytes, ofLE_leBytes] at ha hb
    rw [← ha, ← hb, h]

theorem alike_link (link aId : UInt64) :
    Alike (.ok [.StreamIn (⟨.L_LONG, link.toNat⟩ : NumericValue).iData])
      (.ok [.StreamIn (⟨.L_LONG, aId.toNat⟩ : NumericValue).iData]) (AllAre aId [link]) := by
  refine .inr ⟨_, _, rfl, rfl, rfl, ?_⟩
  rw [allAre_singleton, List.cons.injEq, and_iff_left rfl, Item.StreamIn.injEq]
  show leBytes 4 link.toNat = leBytes 4 aId.toNat ↔ _
  rw [leBytes_inj, ← UInt32.toNat_inj, UInt64.toNat_toUInt32, UInt64.toNat_toUInt32]
  rfl

/-! ### Streaming with and without the id -/

theorem setLinksOfItems_eq_nil {aId : UInt64} {items : List ResourceItem} : setLinksOfItems aId items = [] ↔ items = [] := by
  cases items with
  | nil => rfl
  | cons p items => exact ⟨fun h => absurd h (List.cons_ne_nil _ _), fun h => absurd h (List.cons_ne_nil _ _)⟩

theorem length_setLinksOfArrays (aId : UInt64) (arrays : List ResourceItemArray) :
    (setLinksOfArrays aId arrays).length = arrays.length := by
  induction arrays with
  | nil => rfl
  | cons ria arrays ih =>
    obtain ⟨iLenType, items⟩ := ria
    rw [setLinksOfArrays, List.length_cons, List.length_cons, ih]

theorem alike_inside {conv : Conversions} {items items' : List ResourceItem} {P : Prop} (iLenType : Option DataType)
    (h : Alike (streamItems conv items) (streamItems conv items') P) (hempty : items' = [] ↔ items = []) :
    Alike (streamItems conv items >>= fun inside =>
        .ok (if items = [] then [] else withSizePrefix iLenType inside))
      (streamItems conv items' >>= fun inside =>
        .ok (if items' = [] then [] else withSizePrefix iLenType inside)) P := by
  by_cases hnil : items = []
  · have hnil' := hempty.mpr hnil
    subst hnil hnil'
    exact h
  · have hnil' : items' ≠ [] := fun h' => hnil (hempty.mp h')
    simp only [if_neg hnil, if_neg hnil']
    refine h.map (withSizePrefix iLenType) ?_ ?_
    · intro xs ys hlen
      cases iLenType with
      | none => exact hlen
      | some type =>
        simp only [withSizePrefix, List.length_append, List.length_cons, hlen]
    · intro xs ys hlen heq
      cases iLenType with
      | none => exact heq
      | some type =>
        rw [withSizePrefix, withSizePrefix, List.append_left_inj, List.cons.injEq] at heq
        exact heq.2

section Streams

variable (conv : Conversions) (aId : UInt64)

mutual

theorem setAllLinks_alike : ∀ p : ResourceItem,
    Alike (p.StreamOut conv) ((p.setAllLinks aId).StreamOut conv) (AllAre aId p.links)
  | .simple item value valueSet link => by
    rw [ResourceItem.setAllLinks, ResourceItem.StreamOut, ResourceItem.StreamOut, ResourceItem.links]
    by_cases hlink : item.iItemType = .L_SRLINK
    · rw [if_pos hlink, if_pos hlink, hlink]
      exact alike_link link aId
    · rw [if_neg hlink, if_neg hlink]
      exact (Alike.refl _).of_iff ((true_iff _).mpr (allAre_nil aId))
  | .array item values => by
    rw [ResourceItem.setAllLinks, ResourceItem.links]
    exact (Alike.refl _).of_iff ((true_iff _).mpr (allAre_nil aId))
  | .structType item (.mk iLenType items) => by
    rw [ResourceItem.setAllLinks, ResourceItem.StreamOut, ResourceItem.StreamOut, ResourceItem.links]
    exact alike_inside iLenType (setLinksOfItems_alike items) setLinksOfItems_eq_nil
  | .structArray item arrays => by
    rw [ResourceItem.setAllLinks, ResourceItem.StreamOut, ResourceItem.StreamOut, ResourceItem.links, length_setLinksOfArrays]
    refine (setLinksOfArrays_alike arrays).map (itemcount item.iLenType arrays.length :: ·) ?_ ?_
    · intro xs ys hlen
      rw [List.length_cons, List.length_cons, hlen]
    · intro xs ys hlen heq
      exact (List.cons.inj heq).2

theorem setLinksOfItems_alike : ∀ items : List ResourceItem,
    Alike (streamItems conv items) (streamItems conv (setLinksOfItems aId items)) (AllAre aId (linksOfItems items))
  | [] => (Alike.refl _).of_iff ((true_iff _).mpr (allAre_nil aId))
  | p :: items => by
    rw [setLinksOfItems, linksOfItems, streamItems, streamItems]
    exact ((setAllLinks_alike p).append (setLinksOfItems_alike items)).of_iff allAre_append.symm

theorem setLinksOfArrays_alike : ∀ arrays : List ResourceItemArray,
    Alike (streamArrays conv arrays) (streamArrays conv (setLinksOfArrays aId arrays)) (AllAre aId (linksOfArrays arrays))
  | [] => (Alike.refl _).of_iff ((true_iff _).mpr (allAre_nil aId))
  | .mk iLenType items :: arrays => by
    rw [setLinksOfArrays, linksOfArrays, streamArrays, streamArrays]
    have hinside := alike_inside iLenType (setLinksOfItems_alike items) setLinksOfItems_eq_nil
    have hboth := (hinside.append (setLinksOfArrays_alike arrays)).of_iff allAre_append.symm
    simp only [bind_assoc, run_ok_bind] at hboth
    exact hboth

end

end Streams

/-! ### What `SetResourceId` reaches -/

theorem setSRLink_alike (conv : Conversions) (aId : UInt64) (p : ResourceItem) :
    Alike ((p.SetSRLink aId).StreamOut conv) ((p.setAllLinks aId).StreamOut conv) (AllAre aId p.linksInside) := by
  cases p with
  | simple item value valueSet link =>
    rw [ResourceItem.SetSRLink, ResourceItem.setAllLinks]
    exact (Alike.refl _).of_iff ((true_iff _).mpr (allAre_nil aId))
  | array item values => exact setAllLinks_alike conv aId (.array item values)
  | structType item ria => exact setAllLinks_alike conv aId (.structType item ria)
  | structArray item arrays => exact setAllLinks_alike conv aId (.structArray item arrays)

theorem setResourceId_alike (conv : Conversions) (aId : UInt64) (items : List ResourceItem) :
    Alike (streamItems conv (items.map (ResourceItem.SetSRLink aId))) (streamItems conv (setLinksOfItems aId items))
      (AllAre aId (items.flatMap ResourceItem.linksInside)) := by
  induction items with
  | nil => exact (Alike.refl _).of_iff ((true_iff _).mpr (allAre_nil aId))
  | cons p items ih =>
    rw [List.map_cons, setLinksOfItems, List.flatMap_cons, streamItems, streamItems]
    exact ((setSRLink_alike conv aId p).append ih).of_iff allAre_append.symm

/-! ### Where the links come from -/

/-- Every one was in memory when its item was made. -/
def FromMemory (memory : ℕ → UInt64) (links : List UInt64) : Prop := ∀ link ∈ links, ∃ i, memory i = link

theorem fromMemory_nil (memory : ℕ → UInt64) : FromMemory memory [] := by
  intro link h
  cases h

theorem fromMemory_append {memory : ℕ → UInt64} {xs ys : List UInt64} :
    FromMemory memory (xs ++ ys) ↔ FromMemory memory xs ∧ FromMemory memory ys :=
  List.forall_mem_append

theorem noItems_fromMemory (memory : ℕ → UInt64) :
    FromMemory memory (linksOfItems (ResourceItemArray.mk none []).items) := fromMemory_nil memory

theorem linksOfItems_append (items items' : List ResourceItem) :
    linksOfItems (items ++ items') = linksOfItems items ++ linksOfItems items' := by
  induction items with
  | nil => rfl
  | cons p items ih => rw [List.cons_append, linksOfItems, linksOfItems, ih, List.append_assoc]

theorem linksOfArrays_append (arrays arrays' : List ResourceItemArray) :
    linksOfArrays (arrays ++ arrays') = linksOfArrays arrays ++ linksOfArrays arrays' := by
  induction arrays with
  | nil => rfl
  | cons ria arrays ih =>
    obtain ⟨iLenType, items⟩ := ria
    rw [List.cons_append, linksOfArrays, linksOfArrays, ih, List.append_assoc]

theorem linksOfArrays_singleton (ria : ResourceItemArray) : linksOfArrays [ria] = linksOfItems ria.items := by
  obtain ⟨iLenType, items⟩ := ria
  rw [linksOfArrays, linksOfArrays, List.append_nil]
  rfl

section Memory

variable {conv : Conversions} {structs : List StructHeader} {memory : ℕ → UInt64}

theorem newResourceItem_fromMemory (i : ℕ) (q : StructItem) :
    FromMemory memory (q.NewResourceItem (memory i)).links := by
  cases q with
  | simple item =>
    intro link h
    rw [StructItem.NewResourceItem, ResourceItem.links] at h
    split at h
    · exact ⟨i, (List.mem_singleton.mp h).symm⟩
    · cases h
  | array item => exact fromMemory_nil memory
  | structType item => exact fromMemory_nil memory
  | structArray item => exact fromMemory_nil memory

theorem newItems_fromMemory (iSIA : List StructItem) : ∀ made,
    FromMemory memory (linksOfItems (iSIA.mapIdx fun i q => q.NewResourceItem (memory (made + i)))) := by
  induction iSIA with
  | nil =>
    intro made
    exact fromMemory_nil memory
  | cons q iSIA ih =>
    intro made
    rw [List.mapIdx_cons, linksOfItems, fromMemory_append]
    refine ⟨newResourceItem_fromMemory (made + 0) q, ?_⟩
    have hrest := ih (made + 1)
    simp only [Nat.add_assoc, Nat.add_comm 1] at hrest
    exact hrest

theorem fillFromStruct_fromMemory {ria : ResourceItemArray} {structName : String} {made : ℕ}
    {done : ResourceItemArray × ℕ} (hria : FromMemory memory (linksOfItems ria.items))
    (h : ria.FillFromStruct structs memory structName made = .ok done) :
    FromMemory memory (linksOfItems done.1.items) := by
  obtain ⟨pSH, -, h⟩ := bind_eq_ok.mp h
  injection h with h
  rw [← h]
  show FromMemory memory (linksOfItems (ria.items ++ _))
  rw [linksOfItems_append, fromMemory_append]
  exact ⟨hria, newItems_fromMemory pSH.iSIA made⟩

theorem setValue_fromMemory {value : String} {made : ℕ} {p : ResourceItem} {done : ResourceItem × ℕ}
    (hp : FromMemory memory p.links) (h : p.SetValue conv structs memory value made = .ok done) :
    FromMemory memory done.1.links := by
  cases p with
  | simple item old valueSet link =>
    rw [ResourceItem.SetValue] at h
    obtain ⟨limit, -, h⟩ := bind_eq_ok.mp h
    split at h
    · cases h
    · injection h with h
      rw [← h]
      exact hp
  | array item values => cases h
  | structType item ria =>
    obtain ⟨⟨⟨iLenType, items⟩, made'⟩, hfilled, h⟩ := bind_eq_ok.mp h
    injection h with h
    rw [← h]
    obtain ⟨iLenType', items'⟩ := ria
    exact fillFromStruct_fromMemory hp hfilled
  | structArray item arrays =>
    obtain ⟨filled, hfilled, h⟩ := bind_eq_ok.mp h
    injection h with h
    rw [← h]
    show FromMemory memory (linksOfArrays (arrays ++ [filled.1]))
    rw [linksOfArrays_append, linksOfArrays_singleton, fromMemory_append]
    exact ⟨hp, fillFromStruct_fromMemory (noItems_fromMemory memory) hfilled⟩

theorem setValues_fromMemory {values : List String} {p p' : ResourceItem} (hp : FromMemory memory p.links)
    (h : p.SetValues values = .ok p') : FromMemory memory p'.links := by
  cases p with
  | simple item value valueSet link => cases h
  | array item old =>
    injection h with h
    rw [← h]
    exact fromMemory_nil memory
  | structType item ria => cases h
  | structArray item arrays =>
    injection h with h
    rw [← h]
    exact hp

/-- An item is its other arrays and the one that `GetRIA` gives. -/
theorem getRIA_fromMemory {p : ResourceItem} {ria : ResourceItemArray} (h : p.GetRIA = .ok ria)
    (hp : FromMemory memory p.links) :
    FromMemory memory (linksOfItems ria.items) ∧ ∀ ria' : ResourceItemArray,
      FromMemory memory (linksOfItems ria'.items) → FromMemory memory (p.putRIA ria').links := by
  cases p with
  | simple item value valueSet link => cases h
  | array item values => cases h
  | structType item old =>
    injection h with h
    obtain ⟨iLenType, items⟩ := old
    rw [← h]
    refine ⟨hp, ?_⟩
    intro ria' hria'
    obtain ⟨iLenType', items'⟩ := ria'
    exact hria'
  | structArray item arrays =>
    rw [ResourceItem.GetRIA] at h
    split at h
    · next last hlast =>
      injection h with h
      have hsplit : arrays.dropLast ++ [last] = arrays := List.dropLast_append_getLast? last hlast
      have hlinks : FromMemory memory (linksOfArrays arrays) := hp
      rw [← hsplit, linksOfArrays_append, linksOfArrays_singleton, fromMemory_append] at hlinks
      rw [← h]
      refine ⟨hlinks.2, ?_⟩
      intro ria' hria'
      show FromMemory memory (linksOfArrays (arrays.dropLast ++ [ria']))
      rw [linksOfArrays_append, linksOfArrays_singleton, fromMemory_append]
      exact ⟨hlinks.1, hria'⟩
    · cases h

theorem findAndSet_fromMemory {label : String} {set : ResourceItem → Run (ResourceItem × ℕ)}
    (hset : ∀ p done, FromMemory memory p.links → set p = .ok done → FromMemory memory done.1.links)
    (items : List ResourceItem) : ∀ {done : List ResourceItem × ℕ}, FromMemory memory (linksOfItems items) →
      findAndSet label set items = .ok done → FromMemory memory (linksOfItems done.1) := by
  induction items with
  | nil =>
    intro done hitems h
    cases h
  | cons p items ih =>
    intro done hitems h
    rw [linksOfItems, fromMemory_append] at hitems
    rw [findAndSet] at h
    split at h
    · obtain ⟨done', hdone', h⟩ := bind_eq_ok.mp h
      injection h with h
      rw [← h, linksOfItems, fromMemory_append]
      exact ⟨hset p done' hitems.1 hdone', hitems.2⟩
    · obtain ⟨done', hdone', h⟩ := bind_eq_ok.mp h
      injection h with h
      rw [← h, linksOfItems, fromMemory_append]
      exact ⟨hitems.1, ih hitems.2 hdone'⟩

theorem set_fromMemory {label : String} {set : ResourceItem → Run (ResourceItem × ℕ)} {ria : ResourceItemArray}
    {done : ResourceItemArray × ℕ}
    (hset : ∀ p done, FromMemory memory p.links → set p = .ok done → FromMemory memory done.1.links)
    (hria : FromMemory memory (linksOfItems ria.items)) (h : ria.Set label set = .ok done) :
    FromMemory memory (linksOfItems done.1.items) := by
  obtain ⟨done', hdone', h⟩ := bind_eq_ok.mp h
  injection h with h
  rw [← h]
  exact findAndSet_fromMemory hset ria.items hria hdone'

mutual

/-- The links of an item have their ids from memory. -/
theorem bodyItem_fromMemory : ∀ (item : BodyItem) {ria : ResourceItemArray} {made : ℕ} {done : ResourceItemArray × ℕ},
    FromMemory memory (linksOfItems ria.items) → item.parse conv structs memory ria made = .ok done →
      FromMemory memory (linksOfItems done.1.items)
  | .simple_initialiser label value, ria, made, done, hria, h => by
    rw [BodyItem.parse] at h
    refine set_fromMemory ?_ hria h
    intro p done' hp hdone'
    exact setValue_fromMemory hp hdone'
  | .no_initialisers label, ria, made, done, hria, h => by
    rw [BodyItem.parse] at h
    injection h with h
    rw [← h]
    exact hria
  | .simple_initialiser_list label values, ria, made, done, hria, h => by
    rw [BodyItem.parse] at h
    refine set_fromMemory ?_ hria h
    intro p done' hp hdone'
    obtain ⟨p', hp', hdone'⟩ := bind_eq_ok.mp hdone'
    injection hdone' with hdone'
    rw [← hdone']
    exact setValues_fromMemory hp hp'
  | .struct_resource_item label element, ria, made, done, hria, h => by
    rw [BodyItem.parse] at h
    refine set_fromMemory ?_ hria h
    intro p done' hp hdone'
    exact element_fromMemory element hp hdone'
  | .struct_array_resource_item label first rest, ria, made, done, hria, h => by
    rw [BodyItem.parse] at h
    refine set_fromMemory ?_ hria h
    intro p done' hp hdone'
    obtain ⟨first', hfirst, hdone'⟩ := bind_eq_ok.mp hdone'
    exact elements_fromMemory rest (element_fromMemory first hp hfirst) hdone'

theorem body_fromMemory : ∀ (body : List BodyItem) {ria : ResourceItemArray} {made : ℕ}
    {done : ResourceItemArray × ℕ}, FromMemory memory (linksOfItems ria.items) →
      parseBody conv structs memory body ria made = .ok done → FromMemory memory (linksOfItems done.1.items)
  | [], ria, made, done, hria, h => by
    rw [parseBody] at h
    injection h with h
    rw [← h]
    exact hria
  | item :: body, ria, made, done, hria, h => by
    rw [parseBody] at h
    obtain ⟨done', hdone', h⟩ := bind_eq_ok.mp h
    exact body_fromMemory body (bodyItem_fromMemory item hria hdone') h

theorem element_fromMemory : ∀ (element : BodyElement) {p : ResourceItem} {made : ℕ} {done : ResourceItem × ℕ},
    FromMemory memory p.links → element.parse conv structs memory p made = .ok done →
      FromMemory memory done.1.links
  | .mk structName body, p, made, done, hp, h => by
    rw [BodyElement.parse] at h
    obtain ⟨set, hset, h⟩ := bind_eq_ok.mp h
    obtain ⟨ria, hria, h⟩ := bind_eq_ok.mp h
    obtain ⟨inside, hinside, h⟩ := bind_eq_ok.mp h
    injection h with h
    obtain ⟨hold, hput⟩ := getRIA_fromMemory hria (setValue_fromMemory hp hset)
    rw [← h]
    exact hput inside.1 (body_fromMemory body hold hinside)

theorem elements_fromMemory : ∀ (elements : List BodyElement) {p : ResourceItem} {made : ℕ}
    {done : ResourceItem × ℕ}, FromMemory memory p.links →
      parseElements conv structs memory elements p made = .ok done → FromMemory memory done.1.links
  | [], p, made, done, hp, h => by
    rw [parseElements] at h
    injection h with h
    rw [← h]
    exact hp
  | element :: elements, p, made, done, hp, h => by
    rw [parseElements] at h
    obtain ⟨done', hdone', h⟩ := bind_eq_ok.mp h
    exact elements_fromMemory elements (element_fromMemory element hp hdone') h

end

end Memory

mutual

theorem addDefault_links : ∀ p : ResourceItem, p.AddDefault.links = p.links
  | .simple item value valueSet link => rfl
  | .array item values => rfl
  | .structType item (.mk iLenType items) => by
    rw [ResourceItem.AddDefault, ResourceItem.links, ResourceItem.links, addDefaults_links items]
  | .structArray item arrays => by
    rw [ResourceItem.AddDefault, ResourceItem.links, ResourceItem.links, addDefaultsEach_links arrays]

theorem addDefaults_links : ∀ items : List ResourceItem, linksOfItems (addDefaults items) = linksOfItems items
  | [] => rfl
  | p :: items => by
    rw [addDefaults, linksOfItems, linksOfItems, addDefault_links p, addDefaults_links items]

theorem addDefaultsEach_links : ∀ arrays : List ResourceItemArray,
    linksOfArrays (addDefaultsEach arrays) = linksOfArrays arrays
  | [] => rfl
  | .mk iLenType items :: arrays => by
    rw [addDefaultsEach, linksOfArrays, linksOfArrays, addDefaults_links items, addDefaultsEach_links arrays]

end

theorem mem_linksInside {p : ResourceItem} {link : UInt64} (h : link ∈ p.linksInside) : link ∈ p.links := by
  cases p with
  | simple item value valueSet link' => cases h
  | array item values => exact h
  | structType item ria => exact h
  | structArray item arrays => exact h

theorem mem_nestedLinks {ria : ResourceItemArray} {link : UInt64} (h : link ∈ ria.nestedLinks) :
    link ∈ linksOfItems ria.items := by
  obtain ⟨iLenType, items⟩ := ria
  change link ∈ items.flatMap ResourceItem.linksInside at h
  show link ∈ linksOfItems items
  induction items with
  | nil => cases h
  | cons p items ih =>
    rw [List.flatMap_cons, List.mem_append] at h
    rw [linksOfItems, List.mem_append]
    exact h.imp mem_linksInside ih

/-- Before `SetResourceId` every SRLINK holds what its memory held. -/
theorem resourceItems_fromMemory {conv : Conversions} {structs : List StructHeader} {memory : ℕ → UInt64}
    {structName : String} {body : List BodyItem} {ria : ResourceItemArray}
    (h : resourceItems conv structs memory structName body = .ok ria) : FromMemory memory ria.nestedLinks := by
  obtain ⟨filled, hfilled, h⟩ := bind_eq_ok.mp h
  obtain ⟨⟨⟨iLenType, items⟩, made⟩, hdone, h⟩ := bind_eq_ok.mp h
  injection h with h
  have hnew := fillFromStruct_fromMemory (noItems_fromMemory memory) hfilled
  have hbody := body_fromMemory body hnew hdone
  intro link hlink
  refine hbody link ?_
  rw [← h] at hlink
  have hmem := mem_nestedLinks hlink
  change link ∈ linksOfItems (addDefaults items) at hmem
  rw [addDefaults_links] at hmem
  exact hmem

/-! ### The stream of a resource -/

/-- What a RESOURCE statement should stream out: the items with the id in every SRLINK. -/
def linkedStream (conv : Conversions) (structs : List StructHeader) (memory : ℕ → UInt64) (structName : String)
    (body : List BodyItem) (aId : UInt64) : Run (List Item) := do
  let ria ← resourceItems conv structs memory structName body
  (ria.setAllLinks aId).StreamOut conv

theorem resourceStream_nested_iff {conv : Conversions} {structs : List StructHeader} {memory : ℕ → UInt64}
    {structName : String} {body : List BodyItem} {aId : UInt64} {ria : ResourceItemArray} {xs : List Item}
    (hitems : resourceItems conv structs memory structName body = .ok ria)
    (haccepted : resourceStream conv structs memory structName body aId = .ok xs) :
    linkedStream conv structs memory structName body aId = .ok xs ↔ AllAre aId ria.nestedLinks := by
  obtain ⟨iLenType, items⟩ := ria
  rw [resourceStream, hitems, run_ok_bind] at haccepted
  rw [linkedStream, hitems, run_ok_bind]
  rcases setResourceId_alike conv aId items with ⟨e, herror, -⟩ | ⟨ys, zs, hys, hzs, -, hiff⟩
  · cases haccepted.symm.trans herror
  · have hxs : xs = ys := Except.ok.inj (haccepted.symm.trans hys)
    show streamItems conv (setLinksOfItems aId items) = .ok xs ↔ _
    rw [hzs, hxs]
    constructor
    · intro h
      exact hiff.mp (Except.ok.inj h).symm
    · intro h
      rw [hiff.mpr h]

/-- Every SRLINK is streamed out as the id exactly if those below the items of the resource hold it already, and what
those hold is what was in memory. -/
theorem resourceStream_linked_iff {conv : Conversions} {structs : List StructHeader} {memory : ℕ → UInt64}
    {structName : String} {body : List BodyItem} {aId : UInt64} {ria : ResourceItemArray} {xs : List Item}
    (hitems : resourceItems conv structs memory structName body = .ok ria)
    (haccepted : resourceStream conv structs memory structName body aId = .ok xs) :
    (linkedStream conv structs memory structName body aId = .ok xs ↔ AllAre aId ria.nestedLinks) ∧
      FromMemory memory ria.nestedLinks :=
  ⟨resourceStream_nested_iff hitems haccepted, resourceItems_fromMemory hitems⟩

/-! ### A dialog -/

/-- `STRUCT PAGE { SRLINK self; }`. -/
def page : StructHeader where
  iLabel := "PAGE"
  iSIA := [.simple ⟨"self", .L_SRLINK, SimpleStructItem.default .L_SRLINK, ""⟩]
  iLenType := none
  distinct := by decide

/-- `STRUCT DIALOG { SRLINK self; STRUCT first; STRUCT pages[]; }`. -/
def dialog : StructHeader where
  iLabel := "DIALOG"
  iSIA := [.simple ⟨"self", .L_SRLINK, SimpleStructItem.default .L_SRLINK, ""⟩, .structType ⟨"first"⟩,
    .structArray ⟨"pages", none⟩]
  iLenType := none
  distinct := by decide

/-- The conversions do not matter here. -/
def noConversions : Conversions where
  Export := fun _ => []
  ExportLength := fun _ => 0
  atof := fun _ => 0

theorem dialog_stream : resourceStream noConversions [page, dialog] (fun _ => 0) "DIALOG"
    [.struct_resource_item "first" (.mk "PAGE" [])] 0x1001 =
      .ok [.StreamIn [1, 16, 0, 0], .StreamIn [0, 0, 0, 0], .StreamIn [0, 0]] := by
  decide +kernel

/-- The items of that dialog. -/
def dialogItems : ResourceItemArray :=
  .mk none [.simple ⟨"self", .L_SRLINK, "", ""⟩ "" false 0,
    .structType ⟨"first"⟩ (.mk none [.simple ⟨"self", .L_SRLINK, "", ""⟩ "" false 0]),
    .structArray ⟨"pages", none⟩ []]

theorem dialog_linked_iff :
    (linkedStream noConversions [page, dialog] (fun _ => 0) "DIALOG"
        [.struct_resource_item "first" (.mk "PAGE" [])] 0x1001 =
        .ok [.StreamIn [1, 16, 0, 0], .StreamIn [0, 0, 0, 0], .StreamIn [0, 0]] ↔
      AllAre 0x1001 dialogItems.nestedLinks) ∧ FromMemory (fun _ => 0) dialogItems.nestedLinks :=
  resourceStream_linked_iff rfl dialog_stream

/-- The SRLINK of the dialog is its id, that of the page in it is not. -/
theorem dialog_unlinked : resourceStream noConversions [page, dialog] (fun _ => 0) "DIALOG"
    [.struct_resource_item "first" (.mk "PAGE" [])] 0x1001 =
      .ok [.StreamIn [1, 16, 0, 0], .StreamIn [0, 0, 0, 0], .StreamIn [0, 0]] ∧
    linkedStream noConversions [page, dialog] (fun _ => 0) "DIALOG"
      [.struct_resource_item "first" (.mk "PAGE" [])] 0x1001 =
      .ok [.StreamIn [1, 16, 0, 0], .StreamIn [1, 16, 0, 0], .StreamIn [0, 0]] := by
  refine ⟨dialog_stream, ?_⟩
  decide +kernel

end GnuPoc.Rcomp
