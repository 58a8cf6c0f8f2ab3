import GnuPoc.Lib.CString
import Mathlib.Data.List.Induction
import Mathlib.Data.List.Sort

/-!
# GnuPoc.Elf.ExportList — the export table of elf2e32 (`reloc.h`, `reloc.cpp`)

The vector position of an export plus one is its ordinal.  `addExportOrdinal` enters a frozen export and
makes nameless holes in front of it, `addExport` fills in an address by name or appends a new export, and
`doSort` sorts what was appended.  `Export::compare` is no order on nameless exports, so the sort is only
used behind `presetOrdinals`, where every export has a name.
-/

namespace GnuPoc.Elf

open GnuPoc.Lib

structure Export where
  name : Option CString
  address : UInt32
  code : Bool
  size : ℤ
  deriving DecidableEq

/-- `Export::compare`; `-1` is `true` as a `bool`. -/
def Export.compare (exp1 exp2 : Export) : Bool :=
  match exp1.name, exp2.name with
  | none, none => false
  | none, some _ => true
  | some _, none => true
  | some n1, some n2 => strcmp n1 n2 < 0

structure ExportList where
  exports : List Export
  presetOrdinals : ℕ

/-- One `addExportOrdinal` call: a line of the frozen `.def` file. -/
structure FrozenExport where
  name : CString
  ordinal : ℕ
  code : Bool
  size : ℤ

/-- One `addExport` call: a symbol of the ELF file. -/
structure ElfSymbol where
  name : CString
  addr : UInt32
  code : Bool
  size : ℤ

namespace ExportList

/-- The constructor. -/
def empty : ExportList := ⟨[], 0⟩

/-- `new Export(NULL, 0)`. -/
def hole : Export := ⟨none, 0, true, 0⟩

def addExportOrdinal (l : ExportList) (c : FrozenExport) : ExportList where
  exports := (l.exports ++ List.replicate (c.ordinal - l.exports.length) hole).modify (c.ordinal - 1)
    fun e => { e with name := some c.name, code := c.code, size := c.size }
  presetOrdinals := max l.presetOrdinals c.ordinal

/-- The loop of `addExport` and what follows it. -/
def addOrUpdate (s : ElfSymbol) : List Export → List Export
  | [] => [⟨some s.name, s.addr, s.code, s.size⟩]
  | e :: es =>
    if e.name = some s.name then
      -- an export without a size has not been given proper data
      (if e.size = 0 then { e with address := s.addr, code := s.code, size := s.size }
        else { e with address := s.addr }) :: es
    else e :: addOrUpdate s es

def addExport (l : ExportList) (s : ElfSymbol) : ExportList :=
  { l with exports := addOrUpdate s l.exports }

/-- `warnMissing`; the messages are left out. -/
def warnMissing (l : ExportList) : Bool := l.exports.any fun e => e.address == 0

def doSort (l : ExportList) : ExportList :=
  { l with exports := l.exports.take l.presetOrdinals ++
      (l.exports.drop l.presetOrdinals).mergeSort fun a b => !Export.compare b a }

/-- The table after the `.def` file was read. -/
def freeze (frozen : List FrozenExport) : ExportList := frozen.foldl addExportOrdinal empty

/-- The table after the `.def` file and the ELF file were read. -/
def fill (frozen : List FrozenExport) (syms : List ElfSymbol) : ExportList :=
  syms.foldl addExport (freeze frozen)

end ExportList

/-- The address the ELF file gives a name: that of the last symbol of the name. -/
def elfAddress (syms : List ElfSymbol) (n : CString) : Option UInt32 :=
  (syms.reverse.find? fun s => s.name = n).map ElfSymbol.addr

theorem elfAddress_append_singleton (syms : List ElfSymbol) (s : ElfSymbol) (n : CString) :
    elfAddress (syms ++ [s]) n = if s.name = n then some s.addr else elfAddress syms n := by
  unfold elfAddress
  rw [List.reverse_append, List.reverse_singleton, List.singleton_append, List.find?_cons]
  by_cases h : s.name = n
  · simp [h]
  · simp [h]

/-! ### The frozen table -/

/-- The table after some `addExportOrdinal` calls: their names at their ordinals, holes elsewhere. -/
structure FrozenTable (cs : List FrozenExport) (l : ExportList) : Prop where
  length_eq : l.exports.length = l.presetOrdinals
  blank : ∀ e ∈ l.exports, e.address = 0
  name_iff : ∀ i n, (∃ e, l.exports[i]? = some e ∧ e.name = some n) ↔
    ∃ c ∈ cs, c.ordinal = i + 1 ∧ c.name = n

theorem frozenTable_empty : FrozenTable [] ExportList.empty where
  length_eq := rfl
  blank := by simp [ExportList.empty]
  name_iff := by simp [ExportList.empty]

/-- One more frozen export keeps the table. -/
theorem FrozenTable.addExportOrdinal {cs : List FrozenExport} {l : ExportList} (h : FrozenTable cs l)
    {c : FrozenExport} (h1 : 1 ≤ c.ordinal) (hc : ∀ d ∈ cs, d.ordinal ≠ c.ordinal) :
    FrozenTable (cs ++ [c]) (l.addExportOrdinal c) := by
  obtain ⟨hlen, hblank, hname⟩ := h
  set padded := l.exports ++ List.replicate (c.ordinal - l.exports.length) ExportList.hole with hpad
  have hplen : padded.length = max l.presetOrdinals c.ordinal := by
    rw [hpad, List.length_append, List.length_replicate, hlen]
    omega
  have hpblank : ∀ e ∈ padded, e.address = 0 := by
    intro e he
    rcases List.mem_append.mp he with he | he
    · exact hblank e he
    · rw [List.eq_of_mem_replicate he]
      rfl
  have hpname : ∀ i n, (∃ e, padded[i]? = some e ∧ e.name = some n) ↔
      ∃ d ∈ cs, d.ordinal = i + 1 ∧ d.name = n := by
    intro i n
    rw [← hname]
    by_cases hi : i < l.exports.length
    · rw [hpad, List.getElem?_append_left hi]
    · have hnone : l.exports[i]? = none := List.getElem?_eq_none (by omega)
      rw [hpad, List.getElem?_append_right (by omega), hnone]
      constructor
      · rintro ⟨e, he, hen⟩
        have hmem := List.mem_of_getElem? he
        rw [List.eq_of_mem_replicate hmem] at hen
        cases hen
      · rintro ⟨e, he, -⟩
        cases he
  refine ⟨?_, ?_, ?_⟩
  · rw [ExportList.addExportOrdinal, List.length_modify]
    exact hplen
  · intro e he
    obtain ⟨i, hi⟩ := List.getElem?_of_mem he
    rw [ExportList.addExportOrdinal, List.getElem?_modify] at hi
    cases hp : padded[i]? with
    | none =>
      rw [← hpad, hp] at hi
      cases hi
    | some d =>
      rw [← hpad, hp] at hi
      have hd := hpblank d (List.mem_of_getElem? hp)
      simp only [Option.map_eq_map, Option.map_some, Option.some.injEq] at hi
      subst hi
      split <;> exact hd
  · intro i n
    rw [ExportList.addExportOrdinal, List.getElem?_modify, ← hpad]
    by_cases hi : c.ordinal - 1 = i
    · have hlt : i < padded.length := by omega
      rw [List.getElem?_eq_getElem hlt]
      simp only [hi, if_true, Option.map_eq_map, Option.map_some, Option.some.injEq, List.mem_append,
        List.mem_singleton]
      constructor
      · rintro ⟨e, rfl, hen⟩
        exact ⟨c, Or.inr rfl, by omega, by simpa using hen⟩
      · rintro ⟨d, hd | rfl, hdi, rfl⟩
        · exact absurd (hdi.trans (by omega)) (hc d hd)
        · exact ⟨_, rfl, rfl⟩
    · have hmap : (fun e : Export => if c.ordinal - 1 = i then
          { e with name := some c.name, code := c.code, size := c.size } else e) = id := by
        funext e
        rw [if_neg hi]
        rfl
      have hcast : (∃ e, padded[i]? = some e ∧ e.name = some n) ↔
          ∃ d ∈ cs ++ [c], d.ordinal = i + 1 ∧ d.name = n := by
        rw [hpname]
        constructor
        · rintro ⟨d, hd, hdi⟩
          exact ⟨d, List.mem_append_left _ hd, hdi⟩
        · rintro ⟨d, hd, hdi, hdn⟩
          rcases List.mem_append.mp hd with hd | hd
          · exact ⟨d, hd, hdi, hdn⟩
          · rw [List.mem_singleton.mp hd] at hdi
            omega
      rw [← hcast]
      simp only [hi, if_false, Option.map_eq_map, Option.map_id']

theorem frozenTable_freeze {cs : List FrozenExport} (h1 : ∀ c ∈ cs, 1 ≤ c.ordinal)
    (ho : (cs.map FrozenExport.ordinal).Nodup) : FrozenTable cs (ExportList.freeze cs) := by
  unfold ExportList.freeze
  induction cs using List.reverseRecOn with
  | nil => exact frozenTable_empty
  | append_singleton cs c ih =>
    rw [List.map_append, List.nodup_append] at ho
    rw [List.foldl_append]
    refine (ih (fun d hd => h1 d (List.mem_append_left _ hd)) ho.1).addExportOrdinal
      (h1 c (by simp)) ?_
    intro d hd
    exact ho.2.2 _ (List.mem_map_of_mem hd) _ (by simp)

theorem FrozenTable.nodup {cs : List FrozenExport} {l : ExportList} (h : FrozenTable cs l)
    (hn : (cs.map FrozenExport.name).Nodup) : (l.exports.filterMap Export.name).Nodup := by
  rw [List.Nodup, List.pairwise_filterMap, List.pairwise_iff_getElem]
  intro i j hi hj hij n hni m hmj hnm
  subst hnm
  obtain ⟨c, hc, hci, hcn⟩ := (h.name_iff i n).mp ⟨_, List.getElem?_eq_getElem hi, hni⟩
  obtain ⟨d, hd, hdj, hdn⟩ := (h.name_iff j n).mp ⟨_, List.getElem?_eq_getElem hj, hmj⟩
  have hcd : c = d := List.inj_on_of_nodup_map hn hc hd (hcn.trans hdn.symm)
  rw [hcd] at hci
  omega

/-! ### Symbols of the ELF file -/

theorem addOrUpdate_names (s : ElfSymbol) (es : List Export) :
    (ExportList.addOrUpdate s es).map Export.name =
      if some s.name ∈ es.map Export.name then es.map Export.name
      else es.map Export.name ++ [some s.name] := by
  induction es with
  | nil => rfl
  | cons e es ih =>
    rw [ExportList.addOrUpdate]
    by_cases h : e.name = some s.name
    · have hm : some s.name ∈ (e :: es).map Export.name := by
        rw [List.map_cons, h]
        exact List.mem_cons_self
      rw [if_pos h, if_pos hm, List.map_cons, List.map_cons]
      split <;> rfl
    · rw [if_neg h, List.map_cons, ih]
      by_cases hm : some s.name ∈ es.map Export.name
      · rw [if_pos hm, if_pos (by rw [List.map_cons]; exact List.mem_cons_of_mem _ hm), List.map_cons]
      · have hm' : some s.name ∉ (e :: es).map Export.name := by
          rw [List.map_cons, List.mem_cons]
          rintro (h' | h')
          · exact h h'.symm
          · exact hm h'
        rw [if_neg hm, if_neg hm', List.map_cons, List.cons_append]

/-- The one export of the symbol's name gets the address, the others are as they were. -/
theorem mem_addOrUpdate {s : ElfSymbol} : ∀ {es : List Export} {e : Export},
    (es.filterMap Export.name).Nodup → e ∈ ExportList.addOrUpdate s es →
    (e.name = some s.name ∧ e.address = s.addr) ∨ (e.name ≠ some s.name ∧ e ∈ es)
  | [], e, _, he => by
    rw [ExportList.addOrUpdate, List.mem_singleton] at he
    rw [he]
    exact Or.inl ⟨rfl, rfl⟩
  | d :: es, e, hn, he => by
    rw [ExportList.addOrUpdate] at he
    by_cases h : d.name = some s.name
    · rw [if_pos h] at he
      rcases List.mem_cons.mp he with rfl | he
      · left
        split
        · exact ⟨h, rfl⟩
        · exact ⟨h, rfl⟩
      · right
        refine ⟨fun hen => ?_, List.mem_cons_of_mem _ he⟩
        rw [List.filterMap_cons_some h] at hn
        exact (List.nodup_cons.mp hn).1 (List.mem_filterMap.mpr ⟨e, he, hen⟩)
    · rw [if_neg h] at he
      rcases List.mem_cons.mp he with rfl | he
      · exact Or.inr ⟨h, List.mem_cons_self⟩
      · have hn' : (es.filterMap Export.name).Nodup :=
          hn.sublist ((List.sublist_cons_self d es).filterMap _)
        rcases mem_addOrUpdate hn' he with h' | ⟨h', hmem⟩
        · exact Or.inl h'
        · exact Or.inr ⟨h', List.mem_cons_of_mem _ hmem⟩

/-- The table after some `addExport` calls on the table `base`. -/
structure FilledTable (base : List Export) (ss : List ElfSymbol) (es : List Export) : Prop where
  names : ∃ news : List CString, es.map Export.name = base.map Export.name ++ news.map some ∧
    ∀ n, n ∈ news ↔ (∃ s ∈ ss, s.name = n) ∧ some n ∉ base.map Export.name
  nodup : (es.filterMap Export.name).Nodup
  address : ∀ e ∈ es, ∀ n, e.name = some n → e.address = (elfAddress ss n).getD 0
  holes : ∀ e ∈ es, e.name = none → e.address = 0

theorem filterMap_name (es : List Export) : es.filterMap Export.name = (es.map Export.name).filterMap id := by
  rw [List.filterMap_map]
  rfl

/-- A symbol updates its own export, or is added behind. -/
theorem FilledTable.addOrUpdate {base es : List Export} {ss : List ElfSymbol} (h : FilledTable base ss es)
    (s : ElfSymbol) : FilledTable base (ss ++ [s]) (ExportList.addOrUpdate s es) := by
  obtain ⟨⟨news, hnames, hnews⟩, hnodup, haddr, hholes⟩ := h
  have hmem : ∀ n, some n ∈ es.map Export.name ↔ n ∈ es.filterMap Export.name := by
    intro n
    simp [List.mem_filterMap]
  refine ⟨?_, ?_, ?_, ?_⟩
  · rw [addOrUpdate_names]
    by_cases hin : some s.name ∈ es.map Export.name
    · refine ⟨news, by rw [if_pos hin, hnames], fun n => ?_⟩
      rw [hnews]
      constructor
      · rintro ⟨⟨t, ht, htn⟩, hb⟩
        exact ⟨⟨t, List.mem_append_left _ ht, htn⟩, hb⟩
      · rintro ⟨⟨t, ht, rfl⟩, hb⟩
        rcases List.mem_append.mp ht with ht | ht
        · exact ⟨⟨t, ht, rfl⟩, hb⟩
        · rw [List.mem_singleton.mp ht] at hb ⊢
          rw [hnames, List.mem_append] at hin
          rcases hin with hin | hin
          · exact absurd hin hb
          · obtain ⟨m, hm, hms⟩ := List.mem_map.mp hin
            cases hms
            exact (hnews _).mp hm
    · refine ⟨news ++ [s.name], ?_, fun n => ?_⟩
      · rw [if_neg hin, hnames, List.map_append, List.append_assoc]
        rfl
      · have hb : some s.name ∉ base.map Export.name := by
          intro hb
          exact hin (by rw [hnames]; exact List.mem_append_left _ hb)
        rw [List.mem_append, List.mem_singleton, hnews]
        constructor
        · rintro (⟨⟨t, ht, htn⟩, hnb⟩ | rfl)
          · exact ⟨⟨t, List.mem_append_left _ ht, htn⟩, hnb⟩
          · exact ⟨⟨s, by simp, rfl⟩, hb⟩
        · rintro ⟨⟨t, ht, rfl⟩, hnb⟩
          rcases List.mem_append.mp ht with ht | ht
          · exact Or.inl ⟨⟨t, ht, rfl⟩, hnb⟩
          · exact Or.inr (by rw [List.mem_singleton.mp ht])
  · rw [filterMap_name, addOrUpdate_names]
    by_cases hin : some s.name ∈ es.map Export.name
    · rw [if_pos hin, ← filterMap_name]
      exact hnodup
    · rw [if_neg hin, List.filterMap_append, ← filterMap_name, List.nodup_append]
      refine ⟨hnodup, by simp, ?_⟩
      intro n hn m hm hnm
      subst hnm
      simp only [List.filterMap_cons, id, List.filterMap_nil, List.mem_singleton] at hm
      rw [hm] at hn
      exact hin ((hmem _).mpr hn)
  · intro e he n hen
    rw [elfAddress_append_singleton]
    rcases mem_addOrUpdate hnodup he with ⟨hes, hea⟩ | ⟨hes, hmem'⟩
    · rw [hes, Option.some.injEq] at hen
      rw [if_pos hen, hea, Option.getD_some]
    · have hne : s.name ≠ n := fun h => hes (by rw [hen, h])
      rw [if_neg hne]
      exact haddr e hmem' n hen
  · intro e he hen
    rcases mem_addOrUpdate hnodup he with ⟨hes, -⟩ | ⟨-, hmem'⟩
    · rw [hes] at hen
      cases hen
    · exact hholes e hmem' hen

theorem filledTable_foldl {base : List Export} {p : ℕ} (hnodup : (base.filterMap Export.name).Nodup)
    (hblank : ∀ e ∈ base, e.address = 0) (ss : List ElfSymbol) :
    FilledTable base ss (ss.foldl ExportList.addExport ⟨base, p⟩).exports ∧
      (ss.foldl ExportList.addExport ⟨base, p⟩).presetOrdinals = p := by
  induction ss using List.reverseRecOn with
  | nil =>
    refine ⟨⟨⟨[], by simp, by simp⟩, hnodup, ?_, fun e he _ => hblank e he⟩, rfl⟩
    intro e he n _
    rw [hblank e he]
    rfl
  | append_singleton ss s ih =>
    rw [List.foldl_append]
    exact ⟨ih.1.addOrUpdate s, ih.2⟩

/-! ### The sorted table -/

/-- `Export::compare`, backwards and negated, on names: the order `doSort` sorts named exports by. -/
def nameLe (a b : CString) : Bool := !decide (strcmp b a < 0)

theorem nameLe_iff {a b : CString} : nameLe a b = true ↔ ¬ b < a := by
  simp [nameLe, CString.lt_def]

theorem lt_of_nameLe {a b : CString} (h : nameLe a b = true) (hne : a ≠ b) : a < b :=
  (CString.lt_or_gt_of_ne hne).resolve_right (nameLe_iff.mp h)

theorem pairwise_mergeSort_names {names : List CString} (hn : names.Nodup) :
    (names.mergeSort nameLe).Pairwise (· < ·) := by
  have htrans : ∀ a b c, nameLe a b = true → nameLe b c = true → nameLe a c = true := by
    intro a b c hab hbc
    rw [nameLe_iff] at hab hbc ⊢
    intro hca
    by_cases hbceq : b = c
    · exact hab (hbceq ▸ hca)
    · exact hab (CString.lt_trans (lt_of_nameLe (nameLe_iff.mpr hbc) hbceq) hca)
  have htotal : ∀ a b, (nameLe a b || nameLe b a) = true := by
    intro a b
    rw [Bool.or_eq_true, nameLe_iff, nameLe_iff]
    by_contra hno
    rw [not_or, not_not, not_not] at hno
    exact CString.lt_irrefl _ (CString.lt_trans hno.1 hno.2)
  have hnd : (names.mergeSort nameLe).Nodup := (List.mergeSort_perm names nameLe).nodup_iff.mpr hn
  exact (List.pairwise_mergeSort htrans htotal names).imp₂ (fun _ _ hle hne => lt_of_nameLe hle hne) hnd

theorem mergeSort_names : ∀ {tail : List Export} {names : List CString},
    tail.map Export.name = names.map some →
    (tail.mergeSort fun a b => !Export.compare b a).map Export.name = (names.mergeSort nameLe).map some := by
  intro tail names h
  have hsome : ∀ e ∈ tail, ∃ n, e.name = some n := by
    intro e he
    have := List.mem_map_of_mem (f := Export.name) he
    rw [h] at this
    obtain ⟨n, -, hn⟩ := List.mem_map.mp this
    exact ⟨n, hn.symm⟩
  have hsort := List.map_mergeSort (f := Export.name) (l := tail)
    (r := fun a b => !Export.compare b a)
    (s := fun a b => match b, a with
      | some x, some y => !decide (strcmp x y < 0)
      | _, _ => true) (by
      intro a ha b hb
      obtain ⟨n, hn⟩ := hsome a ha
      obtain ⟨m, hm⟩ := hsome b hb
      simp only [Export.compare, hn, hm])
  rw [hsort, h]
  symm
  refine List.map_mergeSort ?_
  intro a _ b _
  rfl

/-- What the table `t` owes to the frozen exports and the ELF symbols. -/
structure ExportsSettled (frozen : List FrozenExport) (syms : List ElfSymbol) (t : List Export) : Prop where
  /-- A frozen name has its ordinal and the address of the ELF file. -/
  frozen_kept : ∀ c ∈ frozen, ∃ e, t[c.ordinal - 1]? = some e ∧ e.name = some c.name ∧
    elfAddress syms c.name = some e.address
  /-- Every ordinal has a named export. -/
  named : ∀ i, i < t.length → ∃ e n, t[i]? = some e ∧ e.name = some n
  names_nodup : (t.map Export.name).Nodup
  /-- The names are those of the frozen exports and of the ELF symbols. -/
  name_iff : ∀ n, some n ∈ t.map Export.name ↔ (∃ c ∈ frozen, c.name = n) ∨ ∃ s ∈ syms, s.name = n
  /-- A name that is not frozen comes behind every frozen ordinal. -/
  new_behind : ∀ (i : ℕ) (e : Export), t[i]? = some e → (∀ c ∈ frozen, e.name ≠ some c.name) →
    ∀ c ∈ frozen, c.ordinal < i + 1
  new_sorted : ∀ (i j : ℕ) (e f : Export) (n m : CString), i < j → t[i]? = some e → t[j]? = some f → e.name = some n →
    f.name = some m → (∀ c ∈ frozen, c.name ≠ n) → strcmp n m < 0

section
variable {frozen : List FrozenExport} {syms : List ElfSymbol}

theorem filledTable_fill (syms : List ElfSymbol) (h1 : ∀ c ∈ frozen, 1 ≤ c.ordinal) (hn : (frozen.map FrozenExport.name).Nodup)
    (ho : (frozen.map FrozenExport.ordinal).Nodup) :
    FilledTable (ExportList.freeze frozen).exports syms (ExportList.fill frozen syms).exports ∧
      (ExportList.fill frozen syms).presetOrdinals = (ExportList.freeze frozen).exports.length := by
  have hft := frozenTable_freeze h1 ho
  have h := filledTable_foldl (p := (ExportList.freeze frozen).presetOrdinals) (hft.nodup hn) hft.blank syms
  exact ⟨h.1, h.2.trans hft.length_eq.symm⟩

/-- The names of the filled and sorted table: the frozen part, then the new names in order. -/
theorem fill_names (syms : List ElfSymbol) (h1 : ∀ c ∈ frozen, 1 ≤ c.ordinal) (hn : (frozen.map FrozenExport.name).Nodup)
    (ho : (frozen.map FrozenExport.ordinal).Nodup) :
    ∃ news : List CString, news.Pairwise (· < ·) ∧
      (ExportList.fill frozen syms).doSort.exports.map Export.name =
        (ExportList.freeze frozen).exports.map Export.name ++ news.map some ∧
      ∀ n, n ∈ news ↔ (∃ s ∈ syms, s.name = n) ∧
        some n ∉ (ExportList.freeze frozen).exports.map Export.name := by
  obtain ⟨hfill, hp⟩ := filledTable_fill syms h1 hn ho
  set base := ExportList.freeze frozen
  obtain ⟨news, hnames, hnews⟩ := hfill.names
  have htake : ((ExportList.fill frozen syms).exports.take base.exports.length).map Export.name =
      base.exports.map Export.name := by
    rw [List.map_take, hnames, List.take_left' (by rw [List.length_map])]
  have hdrop : ((ExportList.fill frozen syms).exports.drop base.exports.length).map Export.name =
      news.map some := by
    rw [List.map_drop, hnames, List.drop_left' (by rw [List.length_map])]
  have hnd : news.Nodup := by
    have hall := hfill.nodup
    rw [filterMap_name, hnames, List.filterMap_append, List.nodup_append] at hall
    have hid : (news.map some).filterMap id = news := by
      rw [List.filterMap_map]
      exact List.filterMap_some
    rw [hid] at hall
    exact hall.2.1
  refine ⟨news.mergeSort nameLe, pairwise_mergeSort_names hnd, ?_, fun n => ?_⟩
  · rw [ExportList.doSort, hp, List.map_append, htake, mergeSort_names hdrop]
  · rw [(List.mergeSort_perm news nameLe).mem_iff, hnews]

theorem doSort_perm (l : ExportList) : l.doSort.exports.Perm l.exports := by
  have h := (List.mergeSort_perm (l.exports.drop l.presetOrdinals)
    fun a b => !Export.compare b a).append_left (l.exports.take l.presetOrdinals)
  rwa [List.take_append_drop] at h

theorem mem_freeze_names (h1 : ∀ c ∈ frozen, 1 ≤ c.ordinal)
    (ho : (frozen.map FrozenExport.ordinal).Nodup) (n : CString) :
    some n ∈ (ExportList.freeze frozen).exports.map Export.name ↔ ∃ c ∈ frozen, c.name = n := by
  have hft := frozenTable_freeze h1 ho
  constructor
  · intro h
    obtain ⟨e, he, hen⟩ := List.mem_map.mp h
    obtain ⟨i, hi⟩ := List.getElem?_of_mem he
    obtain ⟨c, hc, -, hcn⟩ := (hft.name_iff i n).mp ⟨e, hi, hen⟩
    exact ⟨c, hc, hcn⟩
  · rintro ⟨c, hc, rfl⟩
    have := h1 c hc
    obtain ⟨e, he, hen⟩ := (hft.name_iff (c.ordinal - 1) c.name).mpr ⟨c, hc, by omega, rfl⟩
    exact List.mem_map.mpr ⟨e, List.mem_of_getElem? he, hen⟩

theorem named_of_warnMissing (h1 : ∀ c ∈ frozen, 1 ≤ c.ordinal)
    (hn : (frozen.map FrozenExport.name).Nodup) (ho : (frozen.map FrozenExport.ordinal).Nodup)
    (hw : (ExportList.fill frozen syms).warnMissing = false) :
    ∀ e ∈ (ExportList.fill frozen syms).exports, ∃ n, e.name = some n ∧ elfAddress syms n = some e.address := by
  obtain ⟨hfill, -⟩ := filledTable_fill syms h1 hn ho
  intro e he
  have hne : e.address ≠ 0 := by
    intro h0
    have hany : (ExportList.fill frozen syms).warnMissing = true :=
      List.any_eq_true.mpr ⟨e, he, by rw [h0]; rfl⟩
    rw [hw] at hany
    cases hany
  cases hname : e.name with
  | none => exact absurd (hfill.holes e he hname) hne
  | some n =>
    have haddr := hfill.address e he n hname
    cases hx : elfAddress syms n with
    | none =>
      rw [hx] at haddr
      exact absurd haddr hne
    | some a =>
      rw [hx] at haddr
      exact ⟨n, rfl, by rw [haddr]; exact hx⟩

end

/-- **The frozen table.**  If no export is missing, the sorted table keeps every frozen export at its
ordinal with its ELF address, has one named export for every ordinal and no name twice, and the other
symbols follow in `strcmp` order, in whatever order they were seen. -/
theorem fill_doSort_settled (frozen : List FrozenExport) (syms : List ElfSymbol)
    (h1 : ∀ c ∈ frozen, 1 ≤ c.ordinal) (hn : (frozen.map FrozenExport.name).Nodup)
    (ho : (frozen.map FrozenExport.ordinal).Nodup)
    (hw : (ExportList.fill frozen syms).warnMissing = false) :
    ExportsSettled frozen syms (ExportList.fill frozen syms).doSort.exports ∧
      ∀ syms', syms'.Perm syms →
        (ExportList.fill frozen syms').doSort.exports.map Export.name =
          (ExportList.fill frozen syms).doSort.exports.map Export.name := by
  have hft := frozenTable_freeze h1 ho
  have hbase := mem_freeze_names h1 ho
  obtain ⟨news, hsorted, hnames, hnews⟩ := fill_names syms h1 hn ho
  have hmem : ∀ e ∈ (ExportList.fill frozen syms).doSort.exports,
      ∃ n, e.name = some n ∧ elfAddress syms n = some e.address := fun e he =>
    named_of_warnMissing h1 hn ho hw e ((doSort_perm _).mem_iff.mp he)
  set base := (ExportList.freeze frozen).exports with hb
  set t := (ExportList.fill frozen syms).doSort.exports with ht
  -- the name at a place of the table, read off the list of names
  have hat : ∀ {i : ℕ} {e : Export}, t[i]? = some e →
      (base.map Export.name ++ news.map some)[i]? = some e.name := by
    intro i e he
    rw [← hnames, List.getElem?_map, he]
    rfl
  have hnew : ∀ {i : ℕ} {e : Export}, t[i]? = some e → (∀ c ∈ frozen, e.name ≠ some c.name) → base.length ≤ i := by
    intro i e he hne
    by_contra hi
    have hai := hat he
    rw [List.getElem?_append_left (by rw [List.length_map]; omega)] at hai
    obtain ⟨n, hen, -⟩ := hmem e (List.mem_of_getElem? he)
    have hin : some n ∈ base.map Export.name := by
      rw [← hen]
      exact List.mem_of_getElem? hai
    obtain ⟨c, hc, rfl⟩ := (hbase n).mp hin
    exact hne c hc hen
  constructor
  · refine ⟨?_, ?_, ?_, ?_, ?_, ?_⟩
    · intro c hc
      have := h1 c hc
      obtain ⟨e0, he0, he0n⟩ := (hft.name_iff (c.ordinal - 1) c.name).mpr ⟨c, hc, by omega, rfl⟩
      have hlt : c.ordinal - 1 < (base.map Export.name).length := by
        rw [List.length_map]
        exact (List.getElem?_eq_some_iff.mp he0).1
      have hname : (t.map Export.name)[c.ordinal - 1]? = some (some c.name) := by
        rw [hnames, List.getElem?_append_left hlt, List.getElem?_map, he0, ← he0n]
        rfl
      rw [List.getElem?_map] at hname
      obtain ⟨e, he, hen⟩ := Option.map_eq_some_iff.mp hname
      obtain ⟨n, hen', hea⟩ := hmem e (List.mem_of_getElem? he)
      rw [hen, Option.some.injEq] at hen'
      exact ⟨e, he, hen, by rw [hen', hea]⟩
    · intro i hi
      obtain ⟨n, hen, -⟩ := hmem t[i] (List.getElem_mem hi)
      exact ⟨t[i], n, List.getElem?_eq_getElem hi, hen⟩
    · have hnd := ((doSort_perm (ExportList.fill frozen syms)).filterMap Export.name).nodup_iff.mpr
        (filledTable_fill syms h1 hn ho).1.nodup
      have hsome : t.map Export.name = (t.filterMap Export.name).map some := by
        rw [← List.filterMap_eq_map', List.map_filterMap]
        refine (List.filterMap_congr fun e he => ?_)
        obtain ⟨n, hen, -⟩ := hmem e he
        rw [hen]
        rfl
      rw [hsome]
      exact hnd.map (Option.some_injective _)
    · intro n
      rw [hnames, List.mem_append, hbase]
      constructor
      · rintro (h | h)
        · exact Or.inl h
        · obtain ⟨m, hm, hmn⟩ := List.mem_map.mp h
          cases hmn
          exact Or.inr ((hnews _).mp hm).1
      · rintro (h | h)
        · exact Or.inl h
        · by_cases hc : ∃ c ∈ frozen, c.name = n
          · exact Or.inl hc
          · exact Or.inr (List.mem_map.mpr ⟨n, (hnews n).mpr ⟨h, fun hin => hc ((hbase n).mp hin)⟩, rfl⟩)
    · intro i e he hne c hc
      have hi := hnew he hne
      have := h1 c hc
      obtain ⟨e0, he0, -⟩ := (hft.name_iff (c.ordinal - 1) c.name).mpr ⟨c, hc, by omega, rfl⟩
      have hlt : c.ordinal - 1 < base.length := (List.getElem?_eq_some_iff.mp he0).1
      omega
    · intro i j e f n m hij he hf hen hfm hne
      have hi : base.length ≤ i := by
        refine hnew he fun c hc hec => hne c hc ?_
        rw [hen] at hec
        injection hec with hec
        exact hec.symm
      have hei := hat he
      have hfj := hat hf
      rw [List.getElem?_append_right (by rw [List.length_map]; omega), List.getElem?_map, hen] at hei
      rw [List.getElem?_append_right (by rw [List.length_map]; omega), List.getElem?_map, hfm] at hfj
      obtain ⟨n', hn', hnn⟩ := Option.map_eq_some_iff.mp hei
      obtain ⟨m', hm', hmm⟩ := Option.map_eq_some_iff.mp hfj
      cases hnn
      cases hmm
      obtain ⟨hlti, rfl⟩ := List.getElem?_eq_some_iff.mp hn'
      obtain ⟨hltj, rfl⟩ := List.getElem?_eq_some_iff.mp hm'
      refine List.pairwise_iff_getElem.mp hsorted _ _ hlti hltj ?_
      rw [List.length_map] at *
      omega
  · intro syms' hperm
    obtain ⟨news', hsorted', hnames', hnews'⟩ := fill_names syms' h1 hn ho
    rw [hnames, hnames', hsorted'.eq_of_mem_iff hsorted fun n => ?_]
    rw [hnews, hnews']
    constructor
    · rintro ⟨⟨s, hs, hsn⟩, hnb⟩
      exact ⟨⟨s, hperm.mem_iff.mp hs, hsn⟩, hnb⟩
    · rintro ⟨⟨s, hs, hsn⟩, hnb⟩
      exact ⟨⟨s, hperm.mem_iff.mpr hs, hsn⟩, hnb⟩

/-- Two frozen exports entered out of order, and two new symbols. -/
theorem fill_doSort_settled_two :
    let frozen : List FrozenExport := [⟨⟨[0x62], by decide⟩, 2, true, 0⟩, ⟨⟨[0x61], by decide⟩, 1, false, 8⟩]
    let syms : List ElfSymbol := [⟨⟨[0x64], by decide⟩, 0x8010, true, 4⟩, ⟨⟨[0x61], by decide⟩, 0x8020, false, 8⟩,
      ⟨⟨[0x62], by decide⟩, 0x8030, true, 4⟩, ⟨⟨[0x63], by decide⟩, 0x8040, true, 4⟩]
    ExportsSettled frozen syms (ExportList.fill frozen syms).doSort.exports ∧
      ∀ syms', syms'.Perm syms →
        (ExportList.fill frozen syms').doSort.exports.map Export.name =
          (ExportList.fill frozen syms).doSort.exports.map Export.name :=
  fill_doSort_settled _ _ (by decide) (by decide) (by decide) (by decide)

end GnuPoc.Elf
