import GnuPoc.Sis.DataUnits
import GnuPoc.Sis.Nesting
import GnuPoc.Sis.Signsis
import Mathlib.Algebra.Order.BigOperators.Group.List

/-!
# GnuPoc.Sis.NestedIndex — the data indices of embedded packages

Behind the data units of the package itself come those of the embedded packages, so that every controller of an
embedded package, at whatever depth, needs its data index moved by the number of units in front.
`LoadEmbeddedSis` sets the index of the outermost one and leaves those inside it.
-/

namespace GnuPoc.Sis

open GnuPoc.Lib GnuPoc.Pkg

/-! ### The elements of a written controller -/

section
variable {env : Env} {w : CSISWriter}

theorem getStringArray_entries (base : List WStr) : entries (GetStringArray base) = [] :=
  entriesAll_leaves Leaf.SISString base.reverse

theorem getDependencyArray_entries (base : List DEPENDNODE) : entries (GetDependencyArray base) = [] := by
  show entriesAll (base.reverse.map _) = []
  induction base.reverse with
  | nil => rfl
  | cons d ds ih =>
    rw [List.map_cons, entriesAll, ih, List.append_nil]
    show entriesAll [.leaf _, .plain .SISVersionRange (_ :: d.toVersion.toList.map _), GetStringArray _] = []
    rw [entriesAll, entriesAll, entriesAll_singleton, getStringArray_entries]
    cases d.toVersion with
    | none => rfl
    | some v => rfl

theorem getPropertyArray_entries (base : List CAPABILITYNODE) : entries (GetPropertyArray base) = [] :=
  entriesAll_leaves (fun c : CAPABILITYNODE => Leaf.SISProperty c.iKey c.iValue) base.reverse

theorem infoDateTime_entries (stub : Bool) : entriesAll (infoDateTime env w stub) = [] := by
  rw [infoDateTime]
  split
  · rfl
  · split
    · rfl
    · rfl

theorem createSISInfo_entries {stub : Bool} {info : SISField} (h : CreateSISInfo env w stub = .ok info) :
    entries info = [] ∧ info.id ≠ LeafClass.id .SISDataIndex := by
  rw [CreateSISInfo] at h
  split at h
  · cases h
  · split at h
    · cases h
    · cases h
      refine ⟨?_, ?_⟩
      · show entriesAll [.leaf _, .leaf _, GetStringArray _, GetStringArray _, .leaf _,
          .plain .SISDateTime (infoDateTime env w stub)] = []
        simp only [entriesAll, getStringArray_entries, List.append_nil]
        exact infoDateTime_entries stub
      · show CompoundClass.id .SISInfo ≠ _
        decide

theorem addLogos_spec {flags : UInt16} : ∀ (logos : List LOGO) {field field' : Option SISField}
    {index index' : UInt32} {array array' : List SISField},
    addLogos env flags logos field index array = .ok (field', index', array') →
    ∃ data, array' = array ++ data ∧ data.length = logos.length ∧ index' = index + UInt32.ofNat data.length ∧
      (logos = [] → field' = field) ∧
      (logos ≠ [] → ∃ desc, field' = some (.plain .SISLogo [desc]) ∧ entries desc = [desc] ∧
        embeddedController desc = none ∧ referredIndex desc = some (index + UInt32.ofNat (data.length - 1)))
  | [], field, field', index, index', array, array', h => by
    cases h
    refine ⟨[], (List.append_nil _).symm, rfl, (UInt32.add_zero _).symm, fun _ => rfl, ?_⟩
    intro hne
    exact absurd rfl hne
  | logo :: logos, field, field', index, index', array, array', h => by
    obtain ⟨⟨desc, fileData⟩, hlogo, h⟩ := bind_eq_ok.mp h
    dsimp only at h
    obtain ⟨array₁, hadd, hrest⟩ := bind_eq_ok.mp h
    obtain ⟨loaded, hloaded, hlogo⟩ := bind_eq_ok.mp hlogo
    cases hlogo
    obtain ⟨data, hdata, hlen, hindex, hnone, hsome⟩ := addLogos_spec logos hrest
    rcases hfile : loaded.fileData with _ | first
    · rw [hfile] at hadd
      cases hadd
    · rw [hfile] at hadd
      cases hadd
      have hsource : logo.pszSource ≠ [] := by
        intro hempty
        rw [hempty] at hloaded
        rw [loadFile_empty hloaded] at hfile
        cases hfile
      refine ⟨first :: data, ?_, ?_, ?_, ?_, ?_⟩
      · rw [hdata, List.append_assoc]
        rfl
      · rw [List.length_cons, List.length_cons, hlen]
      · rw [hindex, List.length_cons, UInt32.add_assoc, Nat.add_comm data.length]
        exact congrArg (index + ·) (ofNat_succ 1 data.length)
      · intro hempty
        cases hempty
      · intro hne
        rcases logos with _ | ⟨next, logos⟩
        · obtain rfl := List.length_eq_zero_iff.mp hlen
          refine ⟨_, hnone rfl, rfl, rfl, ?_⟩
          have hoperation : (if logo.pszDest ≠ [] then EOpRun ||| EOpInstall else EOpRun) ≠ EOpNull := by
            split
            · decide
            · decide
          show (if (if logo.pszDest ≠ [] then EOpRun ||| EOpInstall else EOpRun) = EOpNull then none
            else some loaded.index) = _
          rw [if_neg hoperation, loadFile_index hloaded hsource]
          exact congrArg some (UInt32.add_zero _).symm
        · obtain ⟨last, hlast, hentries, hcontroller, hrefer⟩ := hsome (List.cons_ne_nil _ _)
          refine ⟨last, hlast, hentries, hcontroller, ?_⟩
          obtain ⟨k, hk⟩ : ∃ k, data.length = k + 1 := ⟨logos.length, by rw [hlen, List.length_cons]⟩
          rw [hrefer, List.length_cons, hk, UInt32.add_assoc]
          refine congrArg (fun v => some (index + v)) ?_
          rw [Nat.add_sub_cancel, Nat.add_sub_cancel, Nat.add_comm k]
          exact ofNat_succ 1 k

end

/-- The nodes of a package are those of a block for its languages, with files as the parser leaves them. -/
structure Spells (w : CSISWriter) (b : Block Line PKGLINECONDITION) : Prop where
  nodes : w.m_pPkgLineBase.reverse = b.nodes
  languages : languageCodes w ≠ []
  lines : b.All (Line.ForLanguages (languageCodes w).length)
  files : ∀ file ∈ blockFiles (languageCodes w).length b, FileFits file

/-- The files of the package, in source order. -/
def spelledFiles (w : CSISWriter) (b : Block Line PKGLINECONDITION) : List (PKGLINEFILE × Bool) :=
  blockFiles (languageCodes w).length b

/-- The descriptions, the controllers and the data units of a package that was written. -/
structure UnitsWritten (env : Env) (w : CSISWriter) (files : List (PKGLINEFILE × Bool)) (controller : List SISField)
    (dataUnits : List SISField) (packages : List EmbeddedPackage) : Prop where
  loaded : List.Forall₂ (fun file package => embeddedPackage env file = .ok package) (packageFiles files) packages
  indexed : ∀ package ∈ packages, (dataIndex? package.controller).isSome = true
  index : dataIndex? controller = some 0
  controllers : ((entriesAll controller).filterMap embeddedController).Perm
    ((placed 1 packages).map placedController)
  units : ∃ data units, dataUnits =
      .plain .SISDataUnit [.SISArray (PlainClass.id .SISFileData) data] :: units.flatten ∧
    List.Forall₂ (fun package units =>
      package.dataUnits.mapM (Recompress env.zlib (compressionOf w.m_wFlags)) = .ok units) packages units ∧
    data.length = w.m_pLogoBase.length + files.countP isStored ∧
    ((entriesAll controller).filterMap referredIndex).Perm
      ((if w.m_pLogoBase.length = 0 then [] else [UInt32.ofNat (w.m_pLogoBase.length - 1)]) ++
        (List.range (files.countP isStored)).map fun k => UInt32.ofNat (w.m_pLogoBase.length + k))

section
variable {env : Env} {w : CSISWriter} {b : Block Line PKGLINECONDITION} {controller dataUnits : List SISField}

theorem findElement_append_none {aType : UInt32} {pre post : List SISField} (h : ∀ f ∈ pre, f.id ≠ aType) :
    findElement aType (pre ++ post) = findElement aType post := by
  rw [findElement, List.find?_append, List.find?_eq_none.mpr, Option.none_or]
  · rfl
  · intro f hf
    simpa using h f hf

/-- The signature of `-c` is no entry. -/
theorem signController_entries {elements : List SISField} (h : signController env w elements = .ok controller) :
    ∃ chain, controller = elements ++ chain ++ [.leaf (.SISDataIndex 0)] ∧ entriesAll chain = [] ∧
      ∀ f ∈ chain, f.id ≠ LeafClass.id .SISDataIndex := by
  rw [signController] at h
  split at h
  · obtain ⟨chain, hchain, h⟩ := bind_eq_ok.mp h
    cases h
    obtain ⟨-, signature, certificates, -, -, rfl⟩ := makeChain_signedOver hchain
    refine ⟨[_], rfl, rfl, ?_⟩
    intro f hf
    rw [List.mem_singleton.mp hf]
    show PlainClass.id .SISSignatureCertificateChain ≠ _
    decide
  · cases h
    refine ⟨[], by rw [List.append_nil], rfl, ?_⟩
    intro f hf
    cases hf

/-- What a written package holds: descriptions, controllers and data units in place. -/
theorem generateController_units (hw : Spells w b) (h : generateController env w false = .ok (controller, dataUnits)) :
    ∃ packages, UnitsWritten env w (spelledFiles w b) controller dataUnits packages := by
  obtain ⟨⟨elements, s⟩, helements, h⟩ := bind_eq_ok.mp h
  obtain ⟨signed, hsigned, h⟩ := bind_eq_ok.mp h
  cases h
  obtain ⟨info, hinfo, helements⟩ := bind_eq_ok.mp helements
  obtain ⟨⟨logoField, index, logoData⟩, hlogos, helements⟩ := bind_eq_ok.mp helements
  obtain ⟨s', hloop, helements⟩ := bind_eq_ok.mp helements
  cases helements
  obtain ⟨data, hdata, hlen, hindex, hnone, hsome⟩ := addLogos_spec _ hlogos
  obtain ⟨chain, hcontroller, hchain, hchainids⟩ := signController_entries hsigned
  obtain ⟨hinfoentries, hinfoid⟩ := createSISInfo_entries hinfo
  -- the loop builds the block
  have htree := @genLoop_nodes (genContext env w false) hw.languages b hw.lines index logoData
  rw [← hw.nodes, hloop] at htree
  rcases hbuild : blockBuild (genContext env w false) b ⟨index, logoData, [], []⟩ with e | ⟨c, t⟩
  · rw [hbuild] at htree
    cases htree
  rw [hbuild] at htree
  injection htree with htree
  obtain ⟨htop, hsupplies⟩ := Prod.mk.inj htree
  obtain ⟨added, hadded, hperm, hoptions⟩ := blockBuild_added b hbuild
  obtain ⟨packages, hfiles⟩ := addFiles_filesAdded rfl _ hw.files hadded
  obtain ⟨stored, hstored, hcount, -, hreferred⟩ := hfiles.fileData
  obtain ⟨units, hunits, happend⟩ := hfiles.dataUnits
  have hlogolen : data.length = w.m_pLogoBase.length := by rw [hlen, List.length_reverse]
  have hfileData : s.fileDataArray = logoData ++ stored := (congrArg Supplies.fileDataArray hsupplies).trans hstored
  have hdataUnits : s.dataUnits = units.flatten := (congrArg Supplies.dataUnits hsupplies).trans happend
  have hoptionsArray : entriesAll s.optionsArray = [] := by
    rw [show s.optionsArray = t.optionsArray from congrArg Supplies.optionsArray hsupplies, hoptions]
    rfl
  -- the entries are those of the logo and of the block
  have hentries : entriesAll controller = entriesAll logoField.toList ++ entries c.field := by
    have hprerequisites : entries (.plain .SISPrerequisites [GetDependencyArray w.m_pPlatformDependBase,
        GetDependencyArray w.m_pDependBase]) = [] := by
      show entriesAll [_, _] = []
      rw [entriesAll, entriesAll_singleton, getDependencyArray_entries, getDependencyArray_entries]
      rfl
    have hproperties : entries (.plain .SISProperties [GetPropertyArray w.m_pCapabilityBase]) = [] := by
      show entriesAll [_] = []
      rw [entriesAll_singleton, getPropertyArray_entries]
    have hlanguages : entries (.plain .SISSupportedLanguages [.SISArray (LeafClass.id .SISLanguage)
        ((languageCodes w).map fun l => .leaf (.SISLanguage l))]) = [] := by
      show entriesAll [_] = []
      rw [entriesAll_singleton]
      exact entriesAll_leaves Leaf.SISLanguage _
    have hsupported : entries (.plain .SISSupportedOptions
        [.SISArray (PlainClass.id .SISSupportedOption) s.optionsArray]) = [] := by
      show entriesAll [_] = []
      rw [entriesAll_singleton]
      exact hoptionsArray
    rw [hcontroller, htop]
    simp only [entriesAll_append, entriesAll_singleton, hchain, List.append_nil]
    rw [entriesAll, entriesAll, entriesAll, entriesAll, entriesAll_singleton, hinfoentries, hsupported, hlanguages,
      hprerequisites, hproperties]
    show [] ++ entriesAll logoField.toList ++ entries c.field ++ [] = _
    rw [List.append_nil, List.nil_append]
  have hlogo : (entriesAll logoField.toList).filterMap embeddedController = [] ∧
      (entriesAll logoField.toList).filterMap referredIndex =
        (if w.m_pLogoBase.length = 0 then [] else [UInt32.ofNat (w.m_pLogoBase.length - 1)]) ∧
      ∀ f ∈ logoField.toList, f.id ≠ LeafClass.id .SISDataIndex := by
    by_cases hempty : w.m_pLogoBase.reverse = []
    · rw [hnone hempty, if_pos (by simpa using hempty)]
      refine ⟨rfl, rfl, ?_⟩
      intro f hf
      cases hf
    · obtain ⟨desc, hdesc, hdescentries, hcontroller, hrefer⟩ := hsome hempty
      have hone : entriesAll logoField.toList = [desc] := by
        rw [hdesc]
        show entriesAll [.plain .SISLogo [desc]] = _
        rw [entriesAll_singleton]
        show entriesAll [desc] = _
        rw [entriesAll_singleton, hdescentries]
      rw [hone, if_neg (by simpa using hempty)]
      refine ⟨?_, ?_, ?_⟩
      · rw [List.filterMap_cons_none hcontroller]
        rfl
      · rw [List.filterMap_cons_some hrefer, hlogolen, UInt32.zero_add]
        rfl
      · intro f hf
        rw [hdesc] at hf
        rw [List.mem_singleton.mp hf]
        show PlainClass.id .SISLogo ≠ _
        decide
  refine ⟨packages, hfiles.loaded, hfiles.indexed, ?_, ?_, data ++ stored, units, ?_, hunits, ?_, ?_⟩
  · rw [dataIndex?, hcontroller, findElement_append_none]
    · rfl
    · intro f hf
      simp only [List.mem_append] at hf
      rcases hf with ((hf | hf) | hf) | hf
      · simp only [List.mem_cons, List.not_mem_nil, or_false] at hf
        rcases hf with rfl | rfl | rfl | rfl | rfl
        · exact hinfoid
        · show PlainClass.id .SISSupportedOptions ≠ _
          decide
        · show PlainClass.id .SISSupportedLanguages ≠ _
          decide
        · show PlainClass.id .SISPrerequisites ≠ _
          decide
        · show PlainClass.id .SISProperties ≠ _
          decide
      · exact hlogo.2.2 f hf
      · rw [List.mem_singleton.mp hf, htop]
        show PlainClass.id .SISInstallBlock ≠ _
        decide
      · exact hchainids f hf
  · rw [hentries, List.filterMap_append, hlogo.1, List.nil_append]
    refine (hperm.filterMap _).trans ?_
    exact List.Perm.of_eq hfiles.controllers
  · rw [hfileData, hdata, hdataUnits]
    rfl
  · rw [List.length_append, hlogolen, hcount]
    rfl
  · rw [hentries, List.filterMap_append, hlogo.2.1]
    refine (List.Perm.refl _).append ((hperm.filterMap _).trans ?_)
    rw [hreferred, hcount]
    refine List.Perm.of_eq (List.map_congr_left ?_)
    intro k hk
    show index + UInt32.ofNat k = _
    rw [hindex, UInt32.zero_add, hlogolen]
    exact ofNat_succ _ k

end

/-! ### Indices that designate the right unit -/

/-- The controllers of an embedded package refer to the units that came with it: every data index, at any depth, is
that of the file, moved by the number of units in front. -/
def Rebased (place : ℕ × EmbeddedPackage) (embedded : List SISField) : Prop :=
  controllerIndices embedded = (controllerIndices place.2.controller).map (place.1 + ·)

/-- Every controller, at any depth, designates the data unit with its own files.  The unit of the package itself
holds each file that a description refers to, and no other. -/
structure Designates (controller dataUnits : List SISField) (packages : List EmbeddedPackage) : Prop where
  own : ∃ index fileData, dataIndex? controller = some index ∧
    dataUnits[index.toNat]? = some (.plain .SISDataUnit [.SISArray (PlainClass.id .SISFileData) fileData]) ∧
    (((entriesAll controller).filterMap referredIndex).map UInt32.toNat).Perm (List.range fileData.length)
  embedded : ∃ embedded, ((entriesAll controller).filterMap embeddedController).Perm embedded ∧
    List.Forall₂ Rebased (placed 1 packages) embedded

/-- The package embeds no other, its own data index is 0, and so many units in front can be counted. -/
def Flat (place : ℕ × EmbeddedPackage) : Prop := controllerIndices place.2.controller = [0] ∧ place.1 < 2 ^ 32

theorem le_of_mem_placed : ∀ {packages : List EmbeddedPackage} {count : ℕ} {place : ℕ × EmbeddedPackage},
    place ∈ placed count packages → count ≤ place.1 ∧ place.2 ∈ packages
  | [], count, place, h => by cases h
  | package :: packages, count, place, h => by
    rcases List.mem_cons.mp h with rfl | h
    · exact ⟨le_refl _, List.mem_cons_self ..⟩
    · obtain ⟨hle, hmem⟩ := le_of_mem_placed h
      exact ⟨(Nat.le_add_right _ _).trans hle, List.mem_cons_of_mem _ hmem⟩

theorem placed_units {f : SISField → Res SISField} {packages : List EmbeddedPackage} {units : List (List SISField)}
    (h : List.Forall₂ (fun package units => package.dataUnits.mapM f = .ok units) packages units) :
    ∀ (front : List SISField), ∀ place ∈ placed front.length packages,
      ∃ units', place.2.dataUnits.mapM f = .ok units' ∧
        ∀ k, k < units'.length → (front ++ units.flatten)[place.1 + k]? = units'[k]? := by
  induction h with
  | nil =>
    intro front place hplace
    cases hplace
  | @cons package us packages units hus hrest ih =>
    intro front place hplace
    rcases List.mem_cons.mp hplace with rfl | hplace
    · refine ⟨us, hus, ?_⟩
      intro k hk
      rw [List.flatten_cons, List.getElem?_append_right (Nat.le_add_right _ _), Nat.add_sub_cancel_left,
        List.getElem?_append_left hk]
    · have hlen : front.length + package.dataUnits.length = (front ++ us).length := by
        rw [List.length_append, mapM_length hus]
      rw [hlen] at hplace
      obtain ⟨units', hunits', hat⟩ := ih (front ++ us) place hplace
      refine ⟨units', hunits', ?_⟩
      intro k hk
      rw [List.flatten_cons, ← List.append_assoc]
      exact hat k hk

/-! ### Sums of indices -/

/-- Sums over a list that agree although no term of the one exceeds that of the other agree term by term. -/
theorem eq_of_sum_map_eq {α : Type} {f g : α → ℕ} : ∀ {l : List α}, (∀ a ∈ l, f a ≤ g a) →
    (l.map f).sum = (l.map g).sum → ∀ a ∈ l, f a = g a
  | [], _, _, a, ha => by cases ha
  | b :: l, hle, hsum, a, ha => by
    rw [List.map_cons, List.map_cons, List.sum_cons, List.sum_cons] at hsum
    have hb := hle b (List.mem_cons_self ..)
    have hl : (l.map f).sum ≤ (l.map g).sum :=
      List.sum_le_sum fun c hc => hle c (List.mem_cons_of_mem _ hc)
    rcases List.mem_cons.mp ha with rfl | ha
    · omega
    · exact eq_of_sum_map_eq (fun c hc => hle c (List.mem_cons_of_mem _ hc)) (by omega) a ha

theorem sum_map_add (base : ℕ) (l : List ℕ) : (l.map (base + ·)).sum = base * l.length + l.sum := by
  induction l with
  | nil => rfl
  | cons a l ih =>
    rw [List.map_cons, List.sum_cons, List.sum_cons, List.length_cons, ih, Nat.mul_add, Nat.mul_one]
    omega

theorem sum_of_forall₂ {places : List (ℕ × EmbeddedPackage)} {embedded : List (List SISField)}
    (h : List.Forall₂ Rebased places embedded) : (embedded.map fun c => (controllerIndices c).sum).sum =
      (places.map fun p => ((controllerIndices p.2.controller).map (p.1 + ·)).sum).sum := by
  induction h with
  | nil => rfl
  | cons hone hrest ih => rw [List.map_cons, List.map_cons, List.sum_cons, List.sum_cons, ih, hone]

/-- The indices that `LoadEmbeddedSis` leaves. -/
theorem placedController_indices {place : ℕ × EmbeddedPackage}
    (h : (dataIndex? place.2.controller).isSome = true) :
    controllerIndices (placedController place) = place.1 % 2 ^ 32 :: dataIndicesAll place.2.controller := by
  rw [placedController, controllerIndices_updateElement h, UInt32.toNat_ofNat']

/-- Only packages without packages of their own keep their indices right. -/
theorem placed_rebased_iff {packages : List EmbeddedPackage}
    (hindexed : ∀ package ∈ packages, (dataIndex? package.controller).isSome = true) :
    (∃ embedded, ((placed 1 packages).map placedController).Perm embedded ∧
      List.Forall₂ Rebased (placed 1 packages) embedded) ↔ ∀ place ∈ placed 1 packages, Flat place := by
  have hleft : ∀ place ∈ placed 1 packages, controllerIndices (placedController place) =
      place.1 % 2 ^ 32 :: dataIndicesAll place.2.controller := by
    intro place hplace
    exact placedController_indices (hindexed place.2 (le_of_mem_placed hplace).2)
  have hright : ∀ place ∈ placed 1 packages, ∃ index, controllerIndices place.2.controller =
      index :: dataIndicesAll place.2.controller := by
    intro place hplace
    obtain ⟨index, hindex⟩ := Option.isSome_iff_exists.mp (hindexed place.2 (le_of_mem_placed hplace).2)
    refine ⟨index.toNat, ?_⟩
    rw [controllerIndices, hindex]
    rfl
  constructor
  · rintro ⟨embedded, hperm, hrebased⟩
    have hsum : ((placed 1 packages).map fun p => (controllerIndices (placedController p)).sum).sum =
        ((placed 1 packages).map fun p => ((controllerIndices p.2.controller).map (p.1 + ·)).sum).sum := by
      rw [← sum_of_forall₂ hrebased, ← (hperm.map fun c => (controllerIndices c).sum).sum_eq, List.map_map]
      rfl
    have hterms := eq_of_sum_map_eq (fun place hplace => ?_) hsum
    · intro place hplace
      obtain ⟨index, hindex⟩ := hright place hplace
      have hterm := hterms place hplace
      have hcount := (le_of_mem_placed hplace).1
      simp only [hleft place hplace, hindex, sum_map_add, List.sum_cons, List.length_cons] at hterm
      have hmod := Nat.mod_le place.1 (2 ^ 32)
      have hnone : (dataIndicesAll place.2.controller).length = 0 := by
        by_contra hne
        have hmul : place.1 ≤ place.1 * (dataIndicesAll place.2.controller).length :=
          Nat.le_mul_of_pos_right _ (Nat.pos_of_ne_zero hne)
        rw [Nat.mul_add, Nat.mul_one] at hterm
        omega
      rw [hnone, Nat.zero_add, Nat.mul_one] at hterm
      refine ⟨?_, ?_⟩
      · rw [hindex, List.length_eq_zero_iff.mp hnone]
        have hzero : index = 0 := by omega
        rw [hzero]
      · have hself : place.1 % 2 ^ 32 = place.1 := by omega
        rw [← hself]
        exact Nat.mod_lt _ (by omega)
    · -- no index is larger than it should be
      obtain ⟨index, hindex⟩ := hright place hplace
      simp only [hleft place hplace, hindex, sum_map_add, List.sum_cons, List.length_cons]
      have hmod := Nat.mod_le place.1 (2 ^ 32)
      have hmul : place.1 ≤ place.1 * ((dataIndicesAll place.2.controller).length + 1) :=
        Nat.le_mul_of_pos_right _ (Nat.succ_pos _)
      omega
  · intro hflat
    refine ⟨_, .refl _, ?_⟩
    rw [List.forall₂_map_right_iff, List.forall₂_same]
    intro place hplace
    obtain ⟨hindices, hlt⟩ := hflat place hplace
    obtain ⟨index, hindex⟩ := hright place hplace
    rw [Rebased, hleft place hplace, hindices, Nat.mod_eq_of_lt hlt]
    rw [hindices] at hindex
    obtain ⟨-, hnone⟩ := List.cons.inj hindex
    rw [← hnone]
    rfl

/-! ### Places of files -/

/-- The places of the last logo and of the files behind the logos are those of the unit exactly if there is no other
logo and the places can be counted. -/
theorem places_perm_iff (logos stored : ℕ) :
    (((if logos = 0 then [] else [UInt32.ofNat (logos - 1)]) ++
        (List.range stored).map fun k => UInt32.ofNat (logos + k)).map UInt32.toNat).Perm
      (List.range (logos + stored)) ↔ logos ≤ 1 ∧ logos + stored ≤ 2 ^ 32 := by
  have hmap : ((if logos = 0 then [] else [UInt32.ofNat (logos - 1)]) ++
        (List.range stored).map fun k => UInt32.ofNat (logos + k)).map UInt32.toNat =
      (if logos = 0 then [] else [(logos - 1) % 2 ^ 32]) ++
        (List.range stored).map fun k => (logos + k) % 2 ^ 32 := by
    rw [List.map_append, List.map_map]
    refine congrArg₂ (· ++ ·) ?_ ?_
    · split
      · rfl
      · rw [List.map_singleton, UInt32.toNat_ofNat']
    · refine List.map_congr_left ?_
      intro k hk
      exact UInt32.toNat_ofNat'
  rw [hmap]
  constructor
  · intro hperm
    have hcount : logos + stored ≤ 2 ^ 32 := by
      by_contra hmany
      have hlast : logos + stored - 1 ∈ List.range (logos + stored) := List.mem_range.mpr (by omega)
      rcases List.mem_append.mp (hperm.mem_iff.mpr hlast) with hmem | hmem
      · split at hmem
        · cases hmem
        · have := List.mem_singleton.mp hmem
          omega
      · obtain ⟨k, -, hk⟩ := List.mem_map.mp hmem
        omega
    refine ⟨?_, hcount⟩
    by_contra hlogos
    have hfirst : 0 ∈ List.range (logos + stored) := List.mem_range.mpr (by omega)
    rcases List.mem_append.mp (hperm.mem_iff.mpr hfirst) with hmem | hmem
    · rw [if_neg (by omega)] at hmem
      have := List.mem_singleton.mp hmem
      omega
    · obtain ⟨k, hk, hzero⟩ := List.mem_map.mp hmem
      have := List.mem_range.mp hk
      omega
  · rintro ⟨hlogos, hcount⟩
    refine List.Perm.of_eq ?_
    have hfiles : ((List.range stored).map fun k => (logos + k) % 2 ^ 32) = (List.range stored).map (logos + ·) := by
      refine List.map_congr_left ?_
      intro k hk
      have := List.mem_range.mp hk
      exact Nat.mod_eq_of_lt (by omega)
    rw [hfiles]
    rcases Nat.le_one_iff_eq_zero_or_eq_one.mp hlogos with rfl | rfl
    · simp
    · rw [if_neg one_ne_zero, Nat.add_comm 1 stored, List.range_succ_eq_map]
      simp [Nat.add_comm]

/-! ### The packages that are written right -/

theorem loaded_unique {env : Env} {files : List PKGLINEFILE} {packages packages' : List EmbeddedPackage}
    (h : List.Forall₂ (fun file package => embeddedPackage env file = .ok package) files packages)
    (h' : List.Forall₂ (fun file package => embeddedPackage env file = .ok package) files packages') :
    packages' = packages := by
  induction h generalizing packages' with
  | nil =>
    cases h'
    rfl
  | cons hone hrest ih =>
    cases h' with
    | cons hone' hrest' =>
      rw [hone] at hone'
      cases hone'
      rw [ih hrest']

/-- In a package that is written, the units of an embedded package keep their order behind those in front; every
controller designates its unit exactly if no embedded package embeds another or has another data index than 0, there
is at most one logo, and the units and the files can be counted. -/
theorem generateController_designates_iff {env : Env} {w : CSISWriter} {b : Block Line PKGLINECONDITION}
    {controller dataUnits : List SISField} {packages : List EmbeddedPackage} (hw : Spells w b)
    (hloaded : List.Forall₂ (fun file package => embeddedPackage env file = .ok package)
      (packageFiles (spelledFiles w b)) packages)
    (h : generateController env w false = .ok (controller, dataUnits)) :
    (∀ place ∈ placed 1 packages, ∃ units,
      place.2.dataUnits.mapM (Recompress env.zlib (compressionOf w.m_wFlags)) = .ok units ∧
      ∀ k, k < units.length → dataUnits[place.1 + k]? = units[k]?) ∧
    (Designates controller dataUnits packages ↔ (∀ place ∈ placed 1 packages, Flat place) ∧
      w.m_pLogoBase.length ≤ 1 ∧ w.m_pLogoBase.length + (spelledFiles w b).countP isStored ≤ 2 ^ 32) := by
  obtain ⟨packages', hunits⟩ := generateController_units hw h
  obtain rfl := loaded_unique hunits.loaded hloaded
  obtain ⟨data, units, hdata, hrecompressed, hlen, hreferred⟩ := hunits.units
  constructor
  · rw [hdata]
    exact placed_units hrecompressed [_]
  · have hfirst : dataUnits[(0 : UInt32).toNat]? =
        some (.plain .SISDataUnit [.SISArray (PlainClass.id .SISFileData) data]) := by
      rw [hdata]
      rfl
    rw [← placed_rebased_iff hunits.indexed, ← places_perm_iff]
    constructor
    · rintro ⟨⟨index, fileData, hindex, hat, hperm⟩, embedded, hembedded, hrebased⟩
      rw [hunits.index] at hindex
      cases hindex
      rw [hfirst] at hat
      cases hat
      rw [← hlen]
      refine ⟨⟨embedded, hunits.controllers.symm.trans hembedded, hrebased⟩, ?_⟩
      exact (hreferred.map UInt32.toNat).symm.trans hperm
    · rintro ⟨⟨embedded, hembedded, hrebased⟩, hperm⟩
      refine ⟨⟨0, data, hunits.index, hfirst, ?_⟩, embedded, hunits.controllers.trans hembedded, hrebased⟩
      rw [hlen]
      exact (hreferred.map UInt32.toNat).trans hperm

/-! ### A package in a package in a package -/

/-- An environment in which one name is that of a SIS file. -/
def envWith (sis : Bytes) : Env :=
  { plainEnv with readFile := fun name => if name = [0x73] then some sis else some [0x41] }

def simpleFile : PKGLINEFILE := ⟨.EInstFileTypeSimple, 0, [0x61], [0x62], []⟩

def embeddedFile : PKGLINEFILE := ⟨.EInstFileTypeComponent, 0, [0x73], [], []⟩

/-- A package with one line. -/
def writerOf (file : PKGLINEFILE) : CSISWriter :=
  { plainHeader with
    m_pVendorName := [[0x41]]
    m_pLocalizedVendorBase := [[0x41]]
    m_pPkgLineBase := [.file file] }

def blockOf (file : PKGLINEFILE) : Block Line PKGLINECONDITION := .cons (.line (.file file)) .nil

/-- The SIS file of a package with a file. -/
def innerFile : Bytes := (GenerateSISFile plainEnv (writerOf simpleFile) false).toOption.getD []

/-- The SIS file of a package that embeds it. -/
def middleFile : Bytes := (GenerateSISFile (envWith innerFile) (writerOf embeddedFile) false).toOption.getD []

theorem embedded_spells : Spells (writerOf embeddedFile) (blockOf embeddedFile) where
  nodes := rfl
  languages := List.cons_ne_nil _ _
  lines := ⟨trivial, trivial⟩
  files := by
    intro file hfile hnull
    rw [List.mem_singleton.mp hfile] at hnull
    cases hnull

theorem middle_loaded : ∃ package, embeddedPackage (envWith middleFile) embeddedFile = .ok package ∧
    controllerIndices package.controller = [0, 1] := by
  obtain ⟨package, hpackage, hindices⟩ := exists_of_any
    (r := embeddedPackage (envWith middleFile) embeddedFile)
    (p := fun package => controllerIndices package.controller == [0, 1]) (by decide +kernel)
  exact ⟨package, hpackage, beq_iff_eq.mp hindices⟩

theorem outer_written : ∃ controller dataUnits,
    generateController (envWith middleFile) (writerOf embeddedFile) false = .ok (controller, dataUnits) ∧
      controllerIndices (controller) = [0, 1, 1] ∧ dataUnits.length = 3 := by
  obtain ⟨written, hwritten, hshape⟩ := exists_of_any
    (r := generateController (envWith middleFile) (writerOf embeddedFile) false)
    (p := fun written => controllerIndices written.1 == [0, 1, 1] && written.2.length == 3) (by decide +kernel)
  rw [Bool.and_eq_true, beq_iff_eq, beq_iff_eq] at hshape
  exact ⟨written.1, written.2, hwritten, hshape⟩

theorem outer_designates_iff : ∃ controller dataUnits packages,
    generateController (envWith middleFile) (writerOf embeddedFile) false = .ok (controller, dataUnits) ∧
      (Designates controller dataUnits packages ↔ (∀ place ∈ placed 1 packages, Flat place) ∧
        (writerOf embeddedFile).m_pLogoBase.length ≤ 1 ∧ (writerOf embeddedFile).m_pLogoBase.length +
          (spelledFiles (writerOf embeddedFile) (blockOf embeddedFile)).countP isStored ≤ 2 ^ 32) := by
  obtain ⟨package, hpackage, -⟩ := middle_loaded
  obtain ⟨controller, dataUnits, hwritten, -, -⟩ := outer_written
  exact ⟨controller, dataUnits, [package], hwritten,
    (generateController_designates_iff embedded_spells (.cons hpackage .nil) hwritten).2⟩

/-- The innermost controller keeps the index 1, at which the files of the package in the middle are now; its own
are in the third unit. -/
theorem outer_nested : ∃ controller dataUnits package,
    embeddedPackage (envWith middleFile) embeddedFile = .ok package ∧
    generateController (envWith middleFile) (writerOf embeddedFile) false = .ok (controller, dataUnits) ∧
    controllerIndices controller = [0, 1, 1] ∧ dataUnits.length = 3 ∧ ¬ Designates controller dataUnits [package] := by
  obtain ⟨package, hpackage, hindices⟩ := middle_loaded
  obtain ⟨controller, dataUnits, hwritten, hcontroller, hunits⟩ := outer_written
  refine ⟨controller, dataUnits, package, hpackage, hwritten, hcontroller, hunits, ?_⟩
  intro hdesignates
  obtain ⟨packages, hwrote⟩ := generateController_units embedded_spells hwritten
  obtain rfl := loaded_unique hwrote.loaded (.cons hpackage .nil)
  obtain ⟨embedded, hembedded, hrebased⟩ := hdesignates.embedded
  have hflat := (placed_rebased_iff hwrote.indexed).mp
    ⟨embedded, hwrote.controllers.symm.trans hembedded, hrebased⟩
  obtain ⟨hzero, -⟩ := hflat (1, package) (List.mem_cons_self ..)
  rw [hindices] at hzero
  cases hzero

end GnuPoc.Sis
