import GnuPoc.E32.Fixups

/-!
# GnuPoc.E32.VersionTables — the version needs of an ELF file, in full

An `Elf32_Verneed` heads a chain of `Elf32_Vernaux`, one for each version that is needed of its file.
`getLibraryName` walks the heads but looks at the first entry of each chain only.
-/

namespace GnuPoc.E32

open GnuPoc.Lib

structure Elf32_Vernaux where
  vna_other : ℕ
  vna_name : ℕ
  deriving DecidableEq

structure Elf32_Verneed where
  vn_file : ℕ
  auxes : List Elf32_Vernaux
  deriving DecidableEq

def vn_cnt (data : Bytes) (need : ℕ) : Except Stop ℕ := fieldAt 2 data (need + 2)

/-- The chain of auxiliary entries at a position. -/
def readAuxes (data : Bytes) : ℕ → ℕ → Except Stop (List Elf32_Vernaux)
  | 0, _ => .ok []
  | n + 1, aux => do
    let other ← vna_other data aux
    let name ← vna_name data aux
    let next ← vna_next data aux
    return ⟨other, name⟩ :: (← readAuxes data n (aux + next))

/-- The version needs at a position, each with its chain. -/
def readNeeds (data : Bytes) : ℕ → ℕ → Except Stop (List Elf32_Verneed)
  | 0, _ => .ok []
  | n + 1, need => do
    let file ← vn_file data need
    let cnt ← vn_cnt data need
    let aux ← vn_aux data need
    let auxes ← readAuxes data cnt (need + aux)
    let next ← vn_next data need
    return ⟨file, auxes⟩ :: (← readNeeds data n (need + next))

/-- The first entry of the chain has the version index. -/
def Elf32_Verneed.Leads (need : Elf32_Verneed) (index : UInt16) : Prop :=
  ∃ aux, need.auxes.head? = some aux ∧ aux.vna_other = index.toNat

instance decidableLeads (need : Elf32_Verneed) (index : UInt16) : Decidable (need.Leads index) :=
  decidable_of_iff (need.auxes.head?.any fun aux => aux.vna_other = index.toNat) (by
    unfold Elf32_Verneed.Leads
    cases need.auxes.head? <;> simp)

theorem fieldAt_lt {size pos n : ℕ} {data : Bytes} (h : fieldAt size data pos = .ok n) (hsize : 0 < size) :
    pos < data.length := by
  unfold fieldAt at h
  split at h
  · omega
  · cases h

theorem readAuxes_cons {data : Bytes} {cnt aux : ℕ} {auxes : List Elf32_Vernaux}
    (h : readAuxes data cnt aux = .ok auxes) (hne : auxes ≠ []) :
    ∃ first, auxes.head? = some first ∧ vna_other data aux = .ok first.vna_other ∧
      vna_name data aux = .ok first.vna_name := by
  cases cnt with
  | zero =>
    cases h
    exact absurd rfl hne
  | succ n =>
    unfold readAuxes at h
    obtain ⟨other, hother, h⟩ := bind_eq_ok.mp h
    obtain ⟨name, hname, h⟩ := bind_eq_ok.mp h
    obtain ⟨next, -, h⟩ := bind_eq_ok.mp h
    obtain ⟨rest, -, h⟩ := bind_eq_ok.mp h
    cases h
    exact ⟨⟨other, name⟩, rfl, hother, hname⟩

/-- What `getLibraryName` finds: the first need whose chain starts with the version. -/
theorem getLibraryNameFrom_eq (index : UInt16) {data : Bytes} {n pos : ℕ} {needs : List Elf32_Verneed}
    (h : readNeeds data n pos = .ok needs) (hne : ∀ need ∈ needs, need.auxes ≠ []) :
    ∃ r, getLibraryNameFrom data index n pos = .ok r ∧
      (r = none → needs.find? (fun need => need.Leads index) = none) ∧
      ∀ needPos auxPos, r = some (needPos, auxPos) → ∃ need aux,
        needs.find? (fun need => need.Leads index) = some need ∧ need.auxes.head? = some aux ∧
        vn_file data needPos = .ok need.vn_file ∧ vna_name data auxPos = .ok aux.vna_name := by
  induction n generalizing pos needs with
  | zero =>
    cases h
    exact ⟨none, rfl, fun _ => rfl, nofun⟩
  | succ n ih =>
    unfold readNeeds at h
    obtain ⟨file, hfile, h⟩ := bind_eq_ok.mp h
    obtain ⟨cnt, -, h⟩ := bind_eq_ok.mp h
    obtain ⟨aux, haux, h⟩ := bind_eq_ok.mp h
    obtain ⟨auxes, hauxes, h⟩ := bind_eq_ok.mp h
    obtain ⟨next, hnext, h⟩ := bind_eq_ok.mp h
    obtain ⟨rest, hrest, h⟩ := bind_eq_ok.mp h
    cases h
    obtain ⟨first, hfirst, hother, hname⟩ := readAuxes_cons hauxes (hne _ List.mem_cons_self)
    have hpos : pos < data.length := by
      have := fieldAt_lt haux (by omega)
      omega
    rw [getLibraryNameFrom, if_pos hpos, haux]
    by_cases hv : first.vna_other = index.toNat
    · have hleads : Elf32_Verneed.Leads ⟨file, auxes⟩ index := ⟨first, hfirst, hv⟩
      refine ⟨some (pos, pos + aux), ?_, nofun, ?_⟩
      · show (vna_other data (pos + aux) >>= _) = _
        rw [hother]
        show ite _ _ _ = _
        rw [if_pos hv]
        rfl
      · intro needPos auxPos hr
        cases hr
        exact ⟨⟨file, auxes⟩, first, List.find?_cons_of_pos (by simpa using hleads), hfirst, hfile, hname⟩
    · have hleads : ¬ Elf32_Verneed.Leads ⟨file, auxes⟩ index := by
        rintro ⟨aux', haux', hv'⟩
        rw [hfirst] at haux'
        cases haux'
        exact hv hv'
      obtain ⟨r, hr, hnone, hsome⟩ := ih hrest fun need hneed => hne need (List.mem_cons_of_mem _ hneed)
      refine ⟨r, ?_, ?_, ?_⟩
      · show (vna_other data (pos + aux) >>= _) = _
        rw [hother]
        show ite _ _ _ = _
        rw [if_neg hv, hnext]
        exact hr
      · intro hr'
        rw [List.find?_cons_of_neg (by simpa using hleads)]
        exact hnone hr'
      · intro needPos auxPos hr'
        rw [List.find?_cons_of_neg (by simpa using hleads)]
        exact hsome needPos auxPos hr'

/-- Version tables as they should be: one version for each dynamic symbol, the needs readable from one end
to the other, no chain empty, no version in two chains, and a name for every file and version. -/
structure VersionTables (elf : Elf) (sections : RelocSections) where
  data : Bytes
  verneed : sections.verneed = some data
  link : UInt32
  verneedLink : sections.verneedLink = some link
  needs : List Elf32_Verneed
  read : readNeeds data sections.verneedNum.toNat 0 = .ok needs
  nonempty : ∀ need ∈ needs, need.auxes ≠ []
  distinct : ((needs.flatMap Elf32_Verneed.auxes).map Elf32_Vernaux.vna_other).Nodup
  file_names : ∀ need ∈ needs, (elf.elf_strptr link (UInt32.ofNat need.vn_file)).isSome
  aux_names : ∀ need ∈ needs, ∀ aux ∈ need.auxes, (elf.elf_strptr link (UInt32.ofNat aux.vna_name)).isSome
  versions : sections.symver.length = sections.dynsyms.length

namespace VersionTables

variable {elf : Elf} {sections : RelocSections} (v : VersionTables elf sections)

/-- The name of the auxiliary entry with a version index, wherever it stands. -/
def dllname (index : UInt16) : Option CString :=
  ((v.needs.flatMap Elf32_Verneed.auxes).find? fun aux => aux.vna_other = index.toNat).bind fun aux =>
    elf.elf_strptr v.link (UInt32.ofNat aux.vna_name)

/-- The auxiliary entry with a version index is the first of its chain. -/
def IsFirst (index : UInt16) : Prop := ∃ need ∈ v.needs, need.Leads index

theorem dllname_of_mem {need : Elf32_Verneed} {aux : Elf32_Vernaux} {index : UInt16} (hneed : need ∈ v.needs)
    (haux : aux ∈ need.auxes) (hother : aux.vna_other = index.toNat) :
    v.dllname index = elf.elf_strptr v.link (UInt32.ofNat aux.vna_name) := by
  have hmem : aux ∈ v.needs.flatMap Elf32_Verneed.auxes := List.mem_flatMap.mpr ⟨need, hneed, haux⟩
  unfold dllname
  cases hfind : (v.needs.flatMap Elf32_Verneed.auxes).find? fun aux => aux.vna_other = index.toNat with
  | none => exact absurd hother (by simpa using List.find?_eq_none.mp hfind aux hmem)
  | some aux' =>
    have hother' : aux'.vna_other = index.toNat := by simpa using List.find?_some hfind
    have heq : aux' = aux :=
      List.inj_on_of_nodup_map v.distinct (List.mem_of_find?_eq_some hfind) hmem (hother'.trans hother.symm)
    rw [heq]
    rfl

/-- `getDsoName` and `getDllName` find both names where the version is the first of its chain. -/
theorem getLibraryNames_of_isFirst {index : UInt16} (h : v.IsFirst index) : ∃ dsoname dllname,
    getLibraryNames elf v.link sections.verneed sections.verneedNum index = .ok (some dsoname, some dllname) ∧
      v.dllname index = some dllname := by
  obtain ⟨r, hr, hnone, hsome⟩ := getLibraryNameFrom_eq index v.read v.nonempty
  obtain ⟨need₀, hneed₀, hleads₀⟩ := h
  cases r with
  | none => exact absurd hleads₀ (by simpa using List.find?_eq_none.mp (hnone rfl) need₀ hneed₀)
  | some r =>
    obtain ⟨needPos, auxPos⟩ := r
    obtain ⟨need, aux, hfind, haux, hfile, hname⟩ := hsome needPos auxPos rfl
    have hneed := List.mem_of_find?_eq_some hfind
    have hmem := List.mem_of_mem_head? haux
    obtain ⟨dsoname, hdso⟩ := Option.isSome_iff_exists.mp (v.file_names need hneed)
    obtain ⟨dllname, hdll⟩ := Option.isSome_iff_exists.mp (v.aux_names need hneed aux hmem)
    have hleads : need.Leads index := by simpa using List.find?_some hfind
    obtain ⟨aux', haux', hother⟩ := hleads
    rw [haux] at haux'
    cases haux'
    refine ⟨dsoname, dllname, ?_, ?_⟩
    · unfold getLibraryNames getLibraryName
      rw [v.verneed]
      simp only
      rw [hr]
      show (vn_file v.data needPos >>= fun file => _) = _
      rw [hfile]
      show (vna_name v.data auxPos >>= fun name => _) = _
      rw [hname, ← hdso, ← hdll]
      rfl
    · rw [v.dllname_of_mem hneed hmem hother, hdll]

theorem getLibraryNames_of_not_isFirst {index : UInt16} (h : ¬ v.IsFirst index) :
    getLibraryNames elf v.link sections.verneed sections.verneedNum index = .ok (none, none) := by
  obtain ⟨r, hr, -, hsome⟩ := getLibraryNameFrom_eq index v.read v.nonempty
  cases r with
  | none =>
    unfold getLibraryNames getLibraryName
    rw [v.verneed]
    simp only
    rw [hr]
    rfl
  | some r =>
    obtain ⟨need, -, hfind, -, -, -⟩ := hsome r.1 r.2 rfl
    exact absurd ⟨need, List.mem_of_find?_eq_some hfind, by simpa using List.find?_some hfind⟩ h

end VersionTables

end GnuPoc.E32
