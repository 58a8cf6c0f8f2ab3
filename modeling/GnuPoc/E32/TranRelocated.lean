import GnuPoc.E32.Relocated
import GnuPoc.Lib.ListedOnce

/-!
# GnuPoc.E32.TranRelocated — what `parseDynamic` does to an image

An import is named by its symbol, as `#<DLL>library#<\DLL>ordinal`.  What `parseNameValue` makes of the name is used
without a test, and in the data the type of an entry is not looked at: so the entries that are acted on are not quite
those of the two types that mean something.
-/

namespace GnuPoc.E32

open GnuPoc.Lib

/-! ### Names -/

/-- The library `d` and the hexadecimal ordinal `x`, which stands behind the first closing mark. -/
structure ImportName (name : Bytes) (d : CString) (x : Bytes) : Prop where
  name_eq : name = chars "#<DLL>" ++ (d.chars ++ (chars "#<\\DLL>" ++ x))
  first : ¬ chars "#<\\DLL>" <:+: d.chars
  some_digit : x ≠ []
  digits : ∀ c ∈ x, digitOf c < 16

theorem not_isspace_of_digitOf {c : UInt8} (h : digitOf c < 16) : isspace c = false ∧ c ≠ 45 ∧ c ≠ 43 ∧ toupper c ≠ 88 := by
  have hall : ∀ n : Fin 256, digitOf (UInt8.ofFin n) < 16 → isspace (UInt8.ofFin n) = false ∧ UInt8.ofFin n ≠ 45 ∧
      UInt8.ofFin n ≠ 43 ∧ toupper (UInt8.ofFin n) ≠ 88 := by decide +kernel
  exact hall c.toFin h

/-- `sscanf` reads the value of the digits, clamped beyond 64 bits. -/
theorem scanHex_digits {x : Bytes} (hne : x ≠ []) (hdigits : ∀ c ∈ x, digitOf c < 16) (value : UInt32) :
    scanHex x value = clampHex false (valueOf 16 x) := by
  obtain ⟨c, s, rfl⟩ := List.exists_cons_of_ne_nil hne
  obtain ⟨hspace, hminus, hplus, -⟩ := not_isspace_of_digitOf (hdigits c List.mem_cons_self)
  have hall : (c :: s).takeWhile (fun c => decide (digitOf c < 16)) = c :: s :=
    List.takeWhile_eq_self_iff.mpr fun b hb => decide_eq_true (hdigits b hb)
  have hskip : skipSpaces (c :: s) = c :: s := by
    rw [skipSpaces, List.dropWhile_cons_of_neg (by simp [hspace])]
  unfold scanHex
  simp only [hskip, List.head?_cons, Option.some.injEq, hminus, hplus, or_self, if_false, decide_false]
  cases s with
  | nil =>
    simp only [hall]
    simp
  | cons b t =>
    obtain ⟨-, -, -, hx⟩ := not_isspace_of_digitOf (hdigits b (by simp))
    by_cases h0 : c = 48
    · subst h0
      simp only [hx, if_false, hall]
      simp
    · have hother : ∀ (y : UInt8) (u : List UInt8), ¬ c :: b :: t = 48 :: y :: u := fun y u heq => h0 (List.cons.inj heq).1
      split
      · next heq => exact absurd heq (hother _ _)
      · rw [hall]
        simp

/-- The clamped number is the ordinal modulo `2^32`. -/
def NumberKept (x : Bytes) : Prop := valueOf 16 x < 2 ^ 64 ∨ valueOf 16 x % 2 ^ 32 = 2 ^ 32 - 1

theorem clampHex_eq_iff {x : Bytes} : clampHex false (valueOf 16 x) = UInt32.ofNat (valueOf 16 x) ↔ NumberKept x := by
  unfold clampHex NumberKept
  by_cases hlarge : 2 ^ 64 ≤ valueOf 16 x
  · rw [if_pos hlarge, ← UInt32.toNat_inj, UInt32.toNat_ofNat']
    constructor
    · intro h
      exact .inr h.symm
    · rintro (h | h)
      · omega
      · exact h.symm
  · rw [if_neg hlarge]
    exact iff_of_true rfl (.inl (Nat.lt_of_not_le hlarge))

/-- What `parseNameValue` reads of a name: its start, and the rest where a library is named. -/
structure NameRead (name : Memory) : Prop where
  start : ∃ b, startsWith (chars "#<DLL>") name = some b
  rest : startsWith (chars "#<DLL>") name = some true → ∃ s, readString (name.drop 6) = some s

theorem parseNameValue_eq_ok {name : Memory} {value : UInt32} {r : Option Bytes × UInt32} :
    parseNameValue name value = .ok r ↔ (startsWith (chars "#<DLL>") name = some false ∧ r = (none, value)) ∨
      (startsWith (chars "#<DLL>") name = some true ∧
        ∃ s, readString (name.drop 6) = some s ∧ r = splitName s value) := by
  unfold parseNameValue
  simp only [bind_eq_ok, orCrashes_eq_ok]
  constructor
  · rintro ⟨b, hb, h⟩
    cases b with
    | false => exact .inl ⟨hb, (Except.ok.inj h).symm⟩
    | true =>
      rw [if_pos rfl] at h
      obtain ⟨s, hs, h⟩ := bind_eq_ok.mp h
      exact .inr ⟨hb, s, orCrashes_eq_ok.mp hs, (Except.ok.inj h).symm⟩
  · rintro (⟨hb, rfl⟩ | ⟨hb, s, hs, rfl⟩)
    · exact ⟨false, hb, rfl⟩
    · refine ⟨true, hb, ?_⟩
      rw [if_pos rfl]
      exact bind_eq_ok.mpr ⟨s, orCrashes_eq_ok.mpr hs, rfl⟩

theorem parseNameValue_ok_iff {name : Memory} {value : UInt32} :
    (∃ r, parseNameValue name value = .ok r) ↔ NameRead name := by
  simp only [parseNameValue_eq_ok]
  constructor
  · rintro ⟨r, ⟨hb, -⟩ | ⟨hb, s, hs, -⟩⟩
    · refine ⟨⟨false, hb⟩, fun htrue => ?_⟩
      cases hb.symm.trans htrue
    · exact ⟨⟨true, hb⟩, fun _ => ⟨s, hs⟩⟩
  · rintro ⟨⟨b, hb⟩, hrest⟩
    cases b with
    | false => exact ⟨_, .inl ⟨hb, rfl⟩⟩
    | true =>
      obtain ⟨s, hs⟩ := hrest hb
      exact ⟨_, .inr ⟨hb, s, hs, rfl⟩⟩

theorem ImportName.strstr_eq {name x : Bytes} {d : CString} (h : ImportName name d x) :
    name.drop 6 = d.chars ++ (chars "#<\\DLL>" ++ x) ∧
      strstr (chars "#<\\DLL>") (name.drop 6) = some (chars "#<\\DLL>" ++ x) := by
  have hmark : chars "#<\\DLL>" = 35 :: chars "<\\DLL>" := by decide
  have hdrop : name.drop 6 = d.chars ++ (chars "#<\\DLL>" ++ x) := by
    rw [h.name_eq, List.drop_left' (by decide)]
  refine ⟨hdrop, ?_⟩
  have hfirst := h.first
  rw [hdrop]
  rw [hmark] at hfirst ⊢
  exact strstr_first x (by decide) hfirst

theorem parseNameValue_of_importName {memory : Memory} {name x : Bytes} {d : CString} (hname : readString memory = some name)
    (h : ImportName name d x) (value : UInt32) :
    parseNameValue memory value = .ok (some d.chars, clampHex false (valueOf 16 x)) := by
  obtain ⟨hdrop, hfind⟩ := h.strstr_eq
  obtain ⟨hstart, hrest⟩ := readString_append (h.name_eq ▸ hname)
  have hlen : (d.chars ++ (chars "#<\\DLL>" ++ x)).length - (chars "#<\\DLL>" ++ x).length = d.chars.length := by
    rw [List.length_append]
    omega
  rw [hdrop] at hfind
  refine parseNameValue_eq_ok.mpr (.inr ⟨hstart, _, hrest, ?_⟩)
  unfold splitName
  rw [hfind]
  simp only [hlen, List.take_left']
  rw [List.drop_left' (by decide), scanHex_digits h.some_digit h.digits]

theorem splitName_fst (name : Bytes) (value value' : UInt32) : (splitName name value).1 = (splitName name value').1 := by
  unfold splitName
  split
  · rfl
  · rfl

/-- The library that a name is parsed to. -/
def libraryNamed (name : Memory) : Option Bytes := (parseNameValue name 0).toOption.bind Prod.fst

/-- Whether there is a library does not depend on what `value` holds. -/
theorem libraryNamed_eq {name : Memory} {value : UInt32} {r : Option Bytes × UInt32}
    (h : parseNameValue name value = .ok r) : libraryNamed name = r.1 := by
  unfold libraryNamed
  rcases parseNameValue_eq_ok.mp h with ⟨hb, rfl⟩ | ⟨hb, s, hs, rfl⟩
  · rw [parseNameValue_eq_ok.mpr (.inl ⟨hb, rfl⟩)]
    rfl
  · rw [parseNameValue_eq_ok.mpr (.inr ⟨hb, s, hs, rfl⟩)]
    exact splitName_fst s 0 value

/-! ### What should happen -/

section
variable (header : E32ImageHeader) (symtab : List Elf32_Sym) (strtab : Elf_Data)

/-- The place of an entry's word in the file. -/
def codeWord (rel : Elf32_Rel) : UInt32 := rel.r_offset - header.codeBase + header.codeOffset
def dataWord (rel : Elf32_Rel) : UInt32 := rel.r_offset - header.dataBase + header.dataOffset

/-- An entry whose word lies in the written code or data. -/
def Written (out : Bytes) (rel : Elf32_Rel) : Prop :=
  (InCode header rel.r_offset → (codeWord header rel).toNat + 4 ≤ out.length) ∧
    (¬ InCode header rel.r_offset → InData header rel.r_offset ∧ (dataWord header rel).toNat + 4 ≤ out.length)

/-- Where the word of an entry is written. -/
def place (rel : Elf32_Rel) : ℕ :=
  if InCode header rel.r_offset then (codeWord header rel).toNat else (dataWord header rel).toNat

/-- The words of two entries have no byte of the file in common. -/
def PlacesApart (rel rel' : Elf32_Rel) : Prop :=
  place header rel + 4 ≤ place header rel' ∨ place header rel' + 4 ≤ place header rel

/-- An absolute entry in the code against a symbol that names the ordinal `x` of the library `d`. -/
def ImportOf (rel : Elf32_Rel) (d : CString) (x : Bytes) : Prop :=
  InCode header rel.r_offset ∧ rel.type = R_ARM_ABS32 ∧
    ∃ sym name, symtab[rel.sym]? = some sym ∧ readString (nameAt strtab sym.st_name) = some name ∧ ImportName name d x

/-- An entry of which something should become: an import, or a relocation. -/
def Wanted (rel : Elf32_Rel) : Prop := (∃ d x, ImportOf header symtab strtab rel d x) ∨ rel.type = R_ARM_RABS22

/-- An entry that the loop acts on: its symbol is in the table and has no value, and it has one of the two types or
stands in the data. -/
def Acts (rel : Elf32_Rel) : Prop :=
  (∃ sym, symtab[rel.sym]? = some sym ∧ sym.st_value = 0) ∧
    (InCode header rel.r_offset → rel.type = R_ARM_ABS32 ∨ rel.type = R_ARM_RABS22)

/-- What is wanted in the three lists. -/
def WantedImport (rel : Elf32_Rel) (c : ImportCall) : Prop :=
  (∃ x, ImportOf header symtab strtab rel c.libname x) ∧ c.addr = rel.r_offset - header.codeBase

def WantedCode (rel : Elf32_Rel) (offset : UInt32) : Prop :=
  rel.type = R_ARM_RABS22 ∧ InCode header rel.r_offset ∧ offset = rel.r_offset - header.codeBase

def WantedData (rel : Elf32_Rel) (offset : UInt32) : Prop :=
  rel.type = R_ARM_RABS22 ∧ ¬ InCode header rel.r_offset ∧ offset = rel.r_offset - header.dataBase

/-- **Relocated.**  The words of the imports, the lists, and all that is left as it was. -/
structure TranRelocated (rels : List Elf32_Rel) (out : Bytes) (s' : RelocState) : Prop where
  word : ∀ rel ∈ rels, ∀ d x, ImportOf header symtab strtab rel d x →
    wordAt s'.out (place header rel) = UInt32.ofNat (valueOf 16 x) + wordAt out (place header rel) <<< 16
  frame : ∀ i, (∀ rel ∈ rels, ∀ d x, ImportOf header symtab strtab rel d x →
    ¬ (place header rel ≤ i ∧ i < place header rel + 4)) → s'.out[i]? = out[i]?
  imports : ListedOnce rels (WantedImport header symtab strtab) s'.importList.held
  code : ListedOnce rels (WantedCode header) (s'.relocationList.held.map RelocationCall.offset)
  data : ListedOnce rels (WantedData header) (s'.dataRelocationList.held.map RelocationCall.offset)

end

/-! ### What one entry does -/

section
variable (stack : Bytes) (junk : UInt32) (header : E32ImageHeader) (symtab : List Elf32_Sym) (strtab : Elf_Data)

/-- An entry's symbol, if it is there and has no value. -/
def actsOn (rel : Elf32_Rel) : Option Elf32_Sym :=
  symtab[rel.sym]?.bind fun sym => if sym.st_value = 0 then some sym else none

/-- What an entry can do, with the branch that does it. -/
inductive TranStep (rel : Elf32_Rel) (s : RelocState) : RelocState → Prop
  | importCode (sym : Elf32_Sym) (dllname : Bytes) (value : UInt32) (hsym : actsOn symtab rel = some sym)
      (hcode : InCode header rel.r_offset) (htype : rel.type = R_ARM_ABS32)
      (hparse : parseNameValue (nameAt strtab sym.st_name) junk = .ok (some dllname, value)) :
      TranStep rel s ((s.withOut (fixImportRelocation stack (codeWord header rel) s.out value)).addImport
        (CString.ofBytes dllname) (rel.r_offset - header.codeBase))
  | code (sym : Elf32_Sym) (hsym : actsOn symtab rel = some sym) (hcode : InCode header rel.r_offset)
      (htype : rel.type = R_ARM_RABS22) :
      TranStep rel s ((s.withOut (fixRelocation stack (codeWord header rel) s.out 0).2).addRelocation
        (rel.r_offset - header.codeBase) (fixRelocation stack (codeWord header rel) s.out 0).1)
  | data (sym : Elf32_Sym) (hsym : actsOn symtab rel = some sym) (hcode : ¬ InCode header rel.r_offset) :
      TranStep rel s ((s.withOut (fixRelocation stack (dataWord header rel) s.out 0).2).addDataRelocation
        (rel.r_offset - header.dataBase) (fixRelocation stack (dataWord header rel) s.out 0).1)
  | otherType (hcode : InCode header rel.r_offset) (habs : rel.type ≠ R_ARM_ABS32) (hrabs : rel.type ≠ R_ARM_RABS22) :
      TranStep rel s s
  | noSymbol (hsym : actsOn symtab rel = none) : TranStep rel s s

/-- Names of entries that are acted on, as far as they are read. -/
def EntryRead (rel : Elf32_Rel) : Prop :=
  ∀ sym, actsOn symtab rel = some sym → NameRead (nameAt strtab sym.st_name)

end

section
variable {stack : Bytes} {junk : UInt32} {header : E32ImageHeader} {symtab : List Elf32_Sym} {strtab : Elf_Data}
variable {rel : Elf32_Rel} {rels : List Elf32_Rel} {s s' : RelocState}

theorem actsOn_eq_some {sym : Elf32_Sym} : actsOn symtab rel = some sym ↔ symtab[rel.sym]? = some sym ∧ sym.st_value = 0 := by
  unfold actsOn
  constructor
  · intro h
    obtain ⟨sym', hsym, h⟩ := Option.bind_eq_some_iff.mp h
    split at h
    · next hvalue =>
      cases h
      exact ⟨hsym, hvalue⟩
    · cases h
  · rintro ⟨hsym, hvalue⟩
    rw [hsym, Option.bind_some, if_pos hvalue]

theorem actsOn_isSome_iff : (actsOn symtab rel).isSome ↔ ∃ sym, symtab[rel.sym]? = some sym ∧ sym.st_value = 0 := by
  simp only [Option.isSome_iff_exists, actsOn_eq_some]

/-- What the check reads of an entry, and what it does with it. -/
theorem checkDynamicRelocation_step (hdata : ¬ InCode header rel.r_offset → InData header rel.r_offset)
    (h : checkDynamicRelocation stack junk header symtab strtab s rel = .ok s') :
    EntryRead symtab strtab rel ∧ TranStep stack junk header symtab strtab rel s s' := by
  unfold checkDynamicRelocation at h
  cases hsym : symtab[rel.sym]? with
  | none =>
    simp only [hsym] at h
    cases h
    have hnone : actsOn symtab rel = none := by rw [actsOn, hsym, Option.bind_none]
    exact ⟨fun sym hacts => absurd (hnone.symm.trans hacts) nofun, .noSymbol hnone⟩
  | some sym =>
    simp only [hsym] at h
    split at h
    · next hvalue =>
      cases h
      have hnone : actsOn symtab rel = none := by rw [actsOn, hsym, Option.bind_some, if_neg hvalue]
      exact ⟨fun sym hacts => absurd (hnone.symm.trans hacts) nofun, .noSymbol hnone⟩
    next hvalue =>
    have hacts : actsOn symtab rel = some sym := actsOn_eq_some.mpr ⟨hsym, not_not.mp hvalue⟩
    obtain ⟨⟨dllname, value⟩, hparse, h⟩ := bind_eq_ok.mp h
    refine ⟨fun sym' hacts' => ?_, ?_⟩
    · cases hacts.symm.trans hacts'
      exact parseNameValue_ok_iff.mp ⟨_, hparse⟩
    change relocateDynamic stack header s rel dllname value = .ok s' at h
    unfold relocateDynamic at h
    split at h
    · next hcode =>
      split at h
      · next htype =>
        cases dllname with
        | none => cases h
        | some dllname =>
          cases h
          exact .importCode sym dllname value hacts hcode htype hparse
      · next htype =>
        split at h
        · next htype' =>
          cases h
          exact .code sym hacts hcode htype'
        · next htype' =>
          cases h
          exact .otherType hcode htype htype'
    · next hcode =>
      rw [if_pos (hdata hcode)] at h
      cases h
      exact .data sym hacts hcode

end

/-! ### What the lists gain -/

section
variable (header : E32ImageHeader) (symtab : List Elf32_Sym) (strtab : Elf_Data)

/-- What an entry does add to the three lists. -/
def importDone (rel : Elf32_Rel) : Option ImportCall :=
  if InCode header rel.r_offset ∧ rel.type = R_ARM_ABS32 then
    (actsOn symtab rel).bind fun sym =>
      (libraryNamed (nameAt strtab sym.st_name)).map fun dllname =>
        ⟨CString.ofBytes dllname, rel.r_offset - header.codeBase⟩
  else none

def codeDone (rel : Elf32_Rel) : Option UInt32 :=
  if InCode header rel.r_offset ∧ rel.type = R_ARM_RABS22 then
    (actsOn symtab rel).map fun _ => rel.r_offset - header.codeBase
  else none

def dataDone (rel : Elf32_Rel) : Option UInt32 :=
  if ¬ InCode header rel.r_offset then (actsOn symtab rel).map fun _ => rel.r_offset - header.dataBase
  else none

/-- The lists after entries in a row; no import is without a library. -/
structure TranAdds (rels : List Elf32_Rel) (s s' : RelocState) : Prop where
  imports : s'.importList.held.Perm (s.importList.held ++ rels.filterMap (importDone header symtab strtab))
  code : (s'.relocationList.held.map RelocationCall.offset).Perm
    (s.relocationList.held.map RelocationCall.offset ++ rels.filterMap (codeDone header symtab))
  data : (s'.dataRelocationList.held.map RelocationCall.offset).Perm
    (s.dataRelocationList.held.map RelocationCall.offset ++ rels.filterMap (dataDone header symtab))
  found : ∀ rel ∈ rels, InCode header rel.r_offset → rel.type = R_ARM_ABS32 → (actsOn symtab rel).isSome →
    (importDone header symtab strtab rel).isSome

end

theorem abs32_ne_rabs22 : R_ARM_ABS32 ≠ R_ARM_RABS22 := by decide

section
variable {stack : Bytes} {junk : UInt32} {header : E32ImageHeader} {symtab : List Elf32_Sym} {strtab : Elf_Data}
variable {rel : Elf32_Rel} {rels : List Elf32_Rel} {s s' : RelocState}

theorem RelocationList.offsets_addRelocation (l : RelocationList) (c : RelocationCall) :
    ((l.addRelocation c).held.map RelocationCall.offset).Perm (l.held.map RelocationCall.offset ++ [c.offset]) := by
  have h := (RelocationList.held_addRelocation l c).map RelocationCall.offset
  rwa [List.map_append] at h

theorem TranStep.adds (h : TranStep stack junk header symtab strtab rel s s') :
    TranAdds header symtab strtab [rel] s s' := by
  cases h with
  | importCode sym dllname value hsym hcode htype hparse =>
    have hdone : importDone header symtab strtab rel =
        some ⟨CString.ofBytes dllname, rel.r_offset - header.codeBase⟩ := by
      rw [importDone, if_pos ⟨hcode, htype⟩, hsym, Option.bind_some, libraryNamed_eq hparse]
      rfl
    refine ⟨?_, ?_, ?_, ?_⟩
    · rw [List.filterMap_cons_some hdone]
      exact ImportList.held_addImport s.importList _
    · simp [codeDone, htype, abs32_ne_rabs22, RelocState.addImport, RelocState.withOut]
    · simp [dataDone, hcode, RelocState.addImport, RelocState.withOut]
    · simp [hdone]
  | code sym hsym hcode htype =>
    have hdone : codeDone header symtab rel = some (rel.r_offset - header.codeBase) := by
      rw [codeDone, if_pos ⟨hcode, htype⟩, hsym]
      rfl
    refine ⟨?_, ?_, ?_, ?_⟩
    · simp [importDone, htype, abs32_ne_rabs22.symm, RelocState.addRelocation, RelocState.withOut]
    · rw [List.filterMap_cons_some hdone]
      exact RelocationList.offsets_addRelocation s.relocationList _
    · simp [dataDone, hcode, RelocState.addRelocation, RelocState.withOut]
    · simp [htype, abs32_ne_rabs22.symm]
  | data sym hsym hcode =>
    have hdone : dataDone header symtab rel = some (rel.r_offset - header.dataBase) := by
      rw [dataDone, if_pos hcode, hsym]
      rfl
    refine ⟨?_, ?_, ?_, ?_⟩
    · simp [importDone, hcode, RelocState.addDataRelocation, RelocState.withOut]
    · simp [codeDone, hcode, RelocState.addDataRelocation, RelocState.withOut]
    · rw [List.filterMap_cons_some hdone]
      exact RelocationList.offsets_addRelocation s.dataRelocationList _
    · simp [hcode]
  | otherType hcode habs hrabs =>
    refine ⟨?_, ?_, ?_, ?_⟩
    · simp [importDone, habs]
    · simp [codeDone, hrabs]
    · simp [dataDone, hcode]
    · simp [habs]
  | noSymbol hsym =>
    refine ⟨?_, ?_, ?_, ?_⟩
    · simp [importDone, hsym]
    · simp [codeDone, hsym]
    · simp [dataDone, hsym]
    · simp [hsym]

theorem foldlM_adds (hdata : ∀ rel ∈ rels, ¬ InCode header rel.r_offset → InData header rel.r_offset)
    (h : rels.foldlM (checkDynamicRelocation stack junk header symtab strtab) s = .ok s') :
    (∀ rel ∈ rels, EntryRead symtab strtab rel) ∧ TranAdds header symtab strtab rels s s' := by
  induction rels generalizing s with
  | nil =>
    cases h
    refine ⟨nofun, ?_, ?_, ?_, nofun⟩ <;> exact (List.append_nil _) ▸ List.Perm.refl _
  | cons rel rels ih =>
    rw [List.foldlM_cons] at h
    obtain ⟨s₁, h1, h⟩ := bind_eq_ok.mp h
    obtain ⟨hread, hstep⟩ := checkDynamicRelocation_step (hdata rel List.mem_cons_self) h1
    obtain ⟨hreads, hrest⟩ := ih (fun rel' hrel' => hdata rel' (List.mem_cons_of_mem _ hrel')) h
    refine ⟨List.forall_mem_cons.mpr ⟨hread, hreads⟩, perm_append_filterMap _ hstep.adds.imports hrest.imports,
      perm_append_filterMap _ hstep.adds.code hrest.code, perm_append_filterMap _ hstep.adds.data hrest.data,
      fun rel' hrel' => ?_⟩
    rcases List.mem_cons.mp hrel' with rfl | hrel'
    · exact hstep.adds.found _ List.mem_cons_self
    · exact hrest.found rel' hrel'

/-! ### What is wanted and what is done -/

theorem ImportOf.named {d : CString} {x : Bytes} {sym : Elf32_Sym} (h : ImportOf header symtab strtab rel d x)
    (hsym : actsOn symtab rel = some sym) :
    ∃ name, readString (nameAt strtab sym.st_name) = some name ∧ ImportName name d x := by
  obtain ⟨-, -, sym', name, hsym', hstring, himport⟩ := h
  cases hsym'.symm.trans (actsOn_eq_some.mp hsym).1
  exact ⟨name, hstring, himport⟩

theorem ImportOf.parsed {d : CString} {x : Bytes} {sym : Elf32_Sym} (h : ImportOf header symtab strtab rel d x)
    (hsym : actsOn symtab rel = some sym) (value : UInt32) :
    parseNameValue (nameAt strtab sym.st_name) value = .ok (some d.chars, clampHex false (valueOf 16 x)) := by
  obtain ⟨name, hname, himport⟩ := h.named hsym
  exact parseNameValue_of_importName hname himport value

theorem importDone_eq {d : CString} {x : Bytes} (h : ImportOf header symtab strtab rel d x)
    (hacts : (actsOn symtab rel).isSome) :
    importDone header symtab strtab rel = some ⟨d, rel.r_offset - header.codeBase⟩ := by
  obtain ⟨sym, hsym⟩ := Option.isSome_iff_exists.mp hacts
  rw [importDone, if_pos ⟨h.1, h.2.1⟩, hsym, Option.bind_some, libraryNamed_eq (h.parsed hsym 0), Option.map_some,
    CString.ofBytes_chars]

/-- The lists come out right exactly when the entries that are acted on are those that are wanted. -/
theorem lists_iff (hfound : InCode header rel.r_offset → rel.type = R_ARM_ABS32 → (actsOn symtab rel).isSome →
      (importDone header symtab strtab rel).isSome) :
    ((∀ c, importDone header symtab strtab rel = some c ↔ WantedImport header symtab strtab rel c) ∧
      (∀ offset, codeDone header symtab rel = some offset ↔ WantedCode header rel offset) ∧
      ∀ offset, dataDone header symtab rel = some offset ↔ WantedData header rel offset) ↔
      (Acts header symtab rel ↔ Wanted header symtab strtab rel) := by
  rw [Acts, ← actsOn_isSome_iff]
  constructor
  · rintro ⟨himport, hcode, hdata⟩
    constructor
    · rintro ⟨hacts, htype⟩
      by_cases hin : InCode header rel.r_offset
      · rcases htype hin with habs | hrabs
        · obtain ⟨c, hc⟩ := Option.isSome_iff_exists.mp (hfound hin habs hacts)
          obtain ⟨⟨x, hx⟩, -⟩ := (himport c).mp hc
          exact .inl ⟨c.libname, x, hx⟩
        · exact .inr hrabs
      · obtain ⟨sym, hsym⟩ := Option.isSome_iff_exists.mp hacts
        have hdone : dataDone header symtab rel = some (rel.r_offset - header.dataBase) := by
          rw [dataDone, if_pos hin, hsym]
          rfl
        exact .inr ((hdata _).mp hdone).1
    · rintro (⟨d, x, hx⟩ | hrabs)
      · have hdone := (himport ⟨d, rel.r_offset - header.codeBase⟩).mpr ⟨⟨x, hx⟩, rfl⟩
        refine ⟨?_, fun _ => .inl hx.2.1⟩
        unfold importDone at hdone
        rw [if_pos ⟨hx.1, hx.2.1⟩] at hdone
        obtain ⟨sym, hsym, -⟩ := Option.bind_eq_some_iff.mp hdone
        rw [hsym]
        rfl
      · refine ⟨?_, fun _ => .inr hrabs⟩
        by_cases hin : InCode header rel.r_offset
        · have hdone := (hcode _).mpr ⟨hrabs, hin, rfl⟩
          rw [codeDone, if_pos ⟨hin, hrabs⟩] at hdone
          obtain ⟨sym, hsym, -⟩ := Option.map_eq_some_iff.mp hdone
          rw [hsym]
          rfl
        · have hdone := (hdata _).mpr ⟨hrabs, hin, rfl⟩
          rw [dataDone, if_pos hin] at hdone
          obtain ⟨sym, hsym, -⟩ := Option.map_eq_some_iff.mp hdone
          rw [hsym]
          rfl
  · intro hiff
    refine ⟨fun c => ⟨fun hc => ?_, ?_⟩, fun offset => ⟨fun ho => ?_, ?_⟩, fun offset => ⟨fun ho => ?_, ?_⟩⟩
    · unfold importDone at hc
      split at hc
      · next hsite =>
        obtain ⟨sym, hsym, hcall⟩ := Option.bind_eq_some_iff.mp hc
        have hacts : (actsOn symtab rel).isSome := by
          rw [hsym]
          rfl
        rcases hiff.mp ⟨hacts, fun _ => .inl hsite.2⟩ with ⟨d, x, hx⟩ | hrabs
        · rw [libraryNamed_eq (hx.parsed hsym 0), Option.map_some, CString.ofBytes_chars] at hcall
          cases hcall
          exact ⟨⟨x, hx⟩, rfl⟩
        · exact absurd (hsite.2.symm.trans hrabs) abs32_ne_rabs22
      · cases hc
    · rintro ⟨⟨x, hx⟩, haddr⟩
      rw [importDone_eq hx (hiff.mpr (.inl ⟨_, x, hx⟩)).1, ← haddr]
    · unfold codeDone at ho
      split at ho
      · next hsite =>
        obtain ⟨sym, -, rfl⟩ := Option.map_eq_some_iff.mp ho
        exact ⟨hsite.2, hsite.1, rfl⟩
      · cases ho
    · rintro ⟨hrabs, hin, rfl⟩
      obtain ⟨sym, hsym⟩ := Option.isSome_iff_exists.mp (hiff.mpr (.inr hrabs)).1
      rw [codeDone, if_pos ⟨hin, hrabs⟩, hsym]
      rfl
    · unfold dataDone at ho
      split at ho
      · next hin =>
        obtain ⟨sym, hsym, rfl⟩ := Option.map_eq_some_iff.mp ho
        have hacts : (actsOn symtab rel).isSome := by
          rw [hsym]
          rfl
        rcases hiff.mp ⟨hacts, fun h => absurd h hin⟩ with ⟨d, x, hx⟩ | hrabs
        · exact absurd hx.1 hin
        · exact ⟨hrabs, hin, rfl⟩
      · cases ho
    · rintro ⟨hrabs, hin, rfl⟩
      obtain ⟨sym, hsym⟩ := Option.isSome_iff_exists.mp (hiff.mpr (.inr hrabs)).1
      rw [dataDone, if_pos hin, hsym]
      rfl

/-! ### What the file gains -/

theorem writeUint32_wordAt {out : Bytes} {pos : ℕ} (h : pos + 4 ≤ out.length) :
    writeUint32 (wordAt out pos) = readAt out pos 4 := by
  have hlen : (readAt out pos 4).length = 4 := by
    rw [readAt, List.length_take, List.length_drop]
    omega
  have hlt : ofLE (readAt out pos 4) < 2 ^ 32 := by
    have := ofLE_lt (readAt out pos 4)
    rw [hlen] at this
    exact this
  have hbytes := leBytes_ofLE (readAt out pos 4)
  rw [hlen] at hbytes
  rw [wordAt, writeUint32, UInt32.toNat_ofNat', Nat.mod_eq_of_lt hlt, hbytes]

theorem fixRelocation_zero (stack : Bytes) {out : Bytes} {offset : UInt32} (h : offset.toNat + 4 ≤ out.length) :
    (fixRelocation stack offset out 0).2 = out := by
  have hword : (fixRelocation stack offset out 0).2 = writeAt out offset.toNat (readAt out offset.toNat 4) := by
    rw [fixRelocation]
    simp only
    rw [readWord_eq h, UInt32.zero_add, writeUint32_wordAt h]
  have hlen : (readAt out offset.toNat 4).length = 4 := by
    rw [readAt, List.length_take, List.length_drop]
    omega
  rw [hword]
  ext i : 1
  by_cases hin : offset.toNat ≤ i ∧ i < offset.toNat + 4
  · rw [getElem?_writeAt_in hin.1 (by omega), readAt, List.getElem?_take_of_lt (by omega), List.getElem?_drop]
    congr 1
    omega
  · exact getElem?_writeAt_out (by omega) (by omega)

/-- The file after entries in a row: the words of the imports, with clamped ordinals, and everything else as it was. -/
structure TranPatches (header : E32ImageHeader) (symtab : List Elf32_Sym) (strtab : Elf_Data) (rels : List Elf32_Rel)
    (out out' : Bytes) : Prop where
  length : out'.length = out.length
  frame : ∀ i, (∀ rel ∈ rels, ∀ d x, ImportOf header symtab strtab rel d x →
    ¬ (place header rel ≤ i ∧ i < place header rel + 4)) → out'[i]? = out[i]?
  word : ∀ rel ∈ rels, ∀ d x, ImportOf header symtab strtab rel d x →
    wordAt out' (place header rel) = clampHex false (valueOf 16 x) + wordAt out (place header rel) <<< 16

theorem place_code (h : InCode header rel.r_offset) : place header rel = (codeWord header rel).toNat := if_pos h

theorem place_data (h : ¬ InCode header rel.r_offset) : place header rel = (dataWord header rel).toNat := if_neg h

theorem Written.place_le {out : Bytes} (h : Written header out rel) : place header rel + 4 ≤ out.length := by
  by_cases hin : InCode header rel.r_offset
  · rw [place_code hin]
    exact h.1 hin
  · rw [place_data hin]
    exact (h.2 hin).2

theorem tranPatches_refl {out : Bytes} (h : ∀ d x, ¬ ImportOf header symtab strtab rel d x) :
    TranPatches header symtab strtab [rel] out out := by
  refine ⟨rfl, fun i _ => rfl, fun rel' hrel' d x himport => ?_⟩
  obtain rfl := List.mem_singleton.mp hrel'
  exact absurd himport (h d x)

theorem TranStep.patches {out₀ : Bytes} (hwritten : Written header out₀ rel)
    (hiff : Acts header symtab rel ↔ Wanted header symtab strtab rel) (hlen : s.out.length = out₀.length)
    (h : TranStep stack junk header symtab strtab rel s s') :
    TranPatches header symtab strtab [rel] s.out s'.out := by
  have hplace : place header rel + 4 ≤ s.out.length := hlen ▸ hwritten.place_le
  cases h with
  | importCode sym dllname value hsym hcode htype hparse =>
    have hacts : Acts header symtab rel :=
      ⟨actsOn_isSome_iff.mp (by rw [hsym]; rfl), fun _ => .inl htype⟩
    obtain ⟨d, x, hx⟩ := (hiff.mp hacts).resolve_right fun hrabs => abs32_ne_rabs22 (htype.symm.trans hrabs)
    rw [hx.parsed hsym] at hparse
    obtain ⟨-, rfl⟩ := Prod.mk.inj (Except.ok.inj hparse)
    rw [place_code hcode] at hplace
    have hword : (writeUint32 (clampHex false (valueOf 16 x) +
        readWord stack s.out (codeWord header rel).toNat <<< 16)).length = 4 := length_writeUint32 _
    refine ⟨length_writeAt_of_le (by rw [hword]; exact hplace), fun i hi => ?_, fun rel' hrel' d' x' hx' => ?_⟩
    · have hout := hi rel List.mem_cons_self d x hx
      rw [place_code hcode] at hout
      exact getElem?_writeAt_out (by omega) (by rw [hword]; omega)
    · obtain rfl := List.mem_singleton.mp hrel'
      have heq := Except.ok.inj ((hx.parsed hsym 0).symm.trans (hx'.parsed hsym 0))
      rw [← (Prod.mk.inj heq).2, place_code hcode, ← readWord_eq hplace]
      exact wordAt_writeAt hplace _
  | code sym hsym hcode htype =>
    rw [place_code hcode] at hplace
    have hsame := fixRelocation_zero stack hplace
    simp only [RelocState.addRelocation, RelocState.withOut, hsame]
    exact tranPatches_refl fun d x hx => abs32_ne_rabs22 (hx.2.1.symm.trans htype)
  | data sym hsym hcode =>
    rw [place_data hcode] at hplace
    have hsame := fixRelocation_zero stack hplace
    simp only [RelocState.addDataRelocation, RelocState.withOut, hsame]
    exact tranPatches_refl fun d x hx => hcode hx.1
  | otherType hcode habs hrabs => exact tranPatches_refl fun d x hx => habs hx.2.1
  | noSymbol hsym =>
    refine tranPatches_refl fun d x hx => ?_
    have hacts := (hiff.mpr (.inl ⟨d, x, hx⟩)).1
    rw [← actsOn_isSome_iff, hsym] at hacts
    exact absurd hacts (by simp)

/-- Entries with sites apart are all patched. -/
theorem foldlM_patches {out₀ : Bytes} (hwritten : ∀ rel ∈ rels, Written header out₀ rel)
    (hap : rels.Pairwise (PlacesApart header))
    (hiff : ∀ rel ∈ rels, Acts header symtab rel ↔ Wanted header symtab strtab rel)
    (hlen : s.out.length = out₀.length)
    (h : rels.foldlM (checkDynamicRelocation stack junk header symtab strtab) s = .ok s') :
    TranPatches header symtab strtab rels s.out s'.out := by
  induction rels generalizing s with
  | nil =>
    cases h
    exact ⟨rfl, fun i _ => rfl, nofun⟩
  | cons rel rels ih =>
    rw [List.foldlM_cons] at h
    obtain ⟨s₁, h1, h⟩ := bind_eq_ok.mp h
    obtain ⟨hrel, hrels⟩ := List.pairwise_cons.mp hap
    have hwritten' := hwritten rel List.mem_cons_self
    have hstep := (checkDynamicRelocation_step (fun hnot => (hwritten'.2 hnot).1) h1).2.patches hwritten'
      (hiff rel List.mem_cons_self) hlen
    have hrest := ih (fun r hr => hwritten r (List.mem_cons_of_mem _ hr)) hrels
      (fun r hr => hiff r (List.mem_cons_of_mem _ hr)) (hstep.length.trans hlen) h
    refine ⟨hrest.length.trans hstep.length, fun i hi => ?_, fun r hmem d x hx => ?_⟩
    · rw [hrest.frame i fun r hr => hi r (List.mem_cons_of_mem _ hr)]
      refine hstep.frame i fun r hr => ?_
      obtain rfl := List.mem_singleton.mp hr
      exact hi r List.mem_cons_self
    rcases List.mem_cons.mp hmem with rfl | hrest'
    · -- the later entries leave the word alone
      rw [← hstep.word r List.mem_cons_self d x hx]
      refine wordAt_congr fun i hi hi' => hrest.frame i fun r' hr' _ _ _ hin => ?_
      have hapart := hrel r' hr'
      unfold PlacesApart at hapart
      omega
    · rw [hrest.word r hrest' d x hx]
      congr 2
      refine wordAt_congr fun i hi hi' => hstep.frame i fun r' hr' _ _ _ hin => ?_
      obtain rfl := List.mem_singleton.mp hr'
      have hapart := hrel r hrest'
      unfold PlacesApart at hapart
      omega

/-! ### The run -/

/-- Only an import looks at what the name was parsed to. -/
theorem relocateDynamic_ok (stack : Bytes) (s : RelocState) (h : ¬ (InCode header rel.r_offset ∧ rel.type = R_ARM_ABS32)) :
    ∃ s', ∀ dllname value, relocateDynamic stack header s rel dllname value = .ok s' := by
  unfold relocateDynamic
  by_cases hin : InCode header rel.r_offset
  · simp only [if_pos hin, if_neg fun habs => h ⟨hin, habs⟩]
    by_cases hrabs : rel.type = R_ARM_RABS22
    · simp only [if_pos hrabs]
      exact ⟨_, fun _ _ => rfl⟩
    · simp only [if_neg hrabs]
      exact ⟨_, fun _ _ => rfl⟩
  · simp only [if_neg hin]
    by_cases hdata : InData header rel.r_offset
    · simp only [if_pos hdata]
      exact ⟨_, fun _ _ => rfl⟩
    · simp only [if_neg hdata]
      exact ⟨_, fun _ _ => rfl⟩

/-- An entry that is acted on as it should is handled, whatever `value` holds. -/
theorem checkDynamicRelocation_total (stack : Bytes) (hread : EntryRead symtab strtab rel)
    (hiff : Acts header symtab rel ↔ Wanted header symtab strtab rel) (s : RelocState) :
    ∃ s', ∀ junk, checkDynamicRelocation stack junk header symtab strtab s rel = .ok s' := by
  unfold checkDynamicRelocation
  cases hsym : symtab[rel.sym]? with
  | none => exact ⟨s, fun _ => rfl⟩
  | some sym =>
    simp only
    by_cases hvalue : sym.st_value ≠ 0
    · exact ⟨s, fun _ => if_pos hvalue⟩
    simp only [if_neg hvalue]
    have hacts : actsOn symtab rel = some sym := actsOn_eq_some.mpr ⟨hsym, not_not.mp hvalue⟩
    by_cases himport : InCode header rel.r_offset ∧ rel.type = R_ARM_ABS32
    · obtain ⟨hin, habs⟩ := himport
      obtain ⟨d, x, hx⟩ := (hiff.mp ⟨⟨sym, hsym, not_not.mp hvalue⟩, fun _ => .inl habs⟩).resolve_right
        fun hrabs => abs32_ne_rabs22 (habs.symm.trans hrabs)
      simp only [hx.parsed hacts]
      refine ⟨(s.withOut (fixImportRelocation stack (codeWord header rel) s.out (clampHex false (valueOf 16 x)))).addImport
        (CString.ofBytes d.chars) (rel.r_offset - header.codeBase), fun _ => ?_⟩
      change relocateDynamic stack header s rel (some d.chars) (clampHex false (valueOf 16 x)) = _
      unfold relocateDynamic
      rw [if_pos hin]
      exact if_pos habs
    · obtain ⟨s', hs'⟩ := relocateDynamic_ok stack s himport
      refine ⟨s', fun junk => ?_⟩
      obtain ⟨r, hr⟩ := (@parseNameValue_ok_iff _ junk).mpr (hread sym hacts)
      exact bind_eq_ok.mpr ⟨r, hr, hs' r.1 r.2⟩

theorem foldlM_total (stack : Bytes) (hread : ∀ rel ∈ rels, EntryRead symtab strtab rel)
    (hiff : ∀ rel ∈ rels, Acts header symtab rel ↔ Wanted header symtab strtab rel) (s : RelocState) :
    ∃ s', ∀ junk, rels.foldlM (checkDynamicRelocation stack junk header symtab strtab) s = .ok s' := by
  induction rels generalizing s with
  | nil => exact ⟨s, fun _ => rfl⟩
  | cons rel rels ih =>
    obtain ⟨s₁, h1⟩ := checkDynamicRelocation_total stack (hread rel List.mem_cons_self) (hiff rel List.mem_cons_self) s
    obtain ⟨s', h2⟩ := ih (fun r hr => hread r (List.mem_cons_of_mem _ hr)) (fun r hr => hiff r (List.mem_cons_of_mem _ hr)) s₁
    refine ⟨s', fun junk => ?_⟩
    rw [List.foldlM_cons]
    exact bind_eq_ok.mpr ⟨s₁, h1 junk, h2 junk⟩

end

/-! ### The dynamic segment -/

/-- A chunk inside of the file, which libelf hands out. -/
def Libelf.chunk (libelf : Libelf) {elf : Elf} {offset size : UInt32} (type : Elf_Type) (h : elf.Inside offset size) :
    Elf_Data :=
  (libelf.elf_getdata_rawchunk elf offset size type).get (by
    obtain ⟨behind, hdata⟩ := libelf.inside elf offset size type h
    rw [hdata]
    rfl)

theorem Libelf.getTranslatedElfData_eq (libelf : Libelf) {elf : Elf} {offset size : UInt32} (type : Elf_Type)
    (h : elf.Inside offset size) :
    getTranslatedElfData libelf elf offset size type = .ok (libelf.chunk type h) :=
  orCrashes_eq_ok.mpr (Option.some_get _).symm

/-- A dynamic segment whose tables lie inside of the file. -/
structure DynamicTables (libelf : Libelf) (elf : Elf) (phdr : Elf32_Phdr) where
  segment : elf.Inside phdr.p_offset phdr.p_filesz
  info : DynamicInfo
  info_eq : dynamicInfo (libelf.chunk .ELF_T_DYN segment) = .ok info
  complete : info.symtabStart ≠ 0 ∧ info.symtabSize ≠ 0 ∧ info.strtabStart ≠ 0 ∧ info.strtabSize ≠ 0 ∧
    info.relStart ≠ 0 ∧ info.relSize ≠ 0
  symbols : elf.Inside (phdr.p_offset + info.symtabStart) info.symtabSize
  strings : elf.Inside (phdr.p_offset + info.strtabStart) info.strtabSize
  relocations : elf.Inside (phdr.p_offset + info.relStart) info.relSize

/-- Memory that can be read up to the end of the last record. -/
def RecordsRead (size : ℕ) (data : Elf_Data) : Prop :=
  (data.memory.take (recordCount size data * size)).reduceOption.length = recordCount size data * size

theorem records_ok_iff {α : Type} {size : ℕ} {decode : Bytes → α} {data : Elf_Data} :
    (∃ l, records size decode data = .ok l) ↔ RecordsRead size data := by
  unfold records RecordsRead readMemory
  simp only [bind_eq_ok, orCrashes_eq_ok]
  constructor
  · rintro ⟨l, bytes, hbytes, -⟩
    by_contra hne
    rw [if_neg hne] at hbytes
    cases hbytes
  · intro h
    exact ⟨_, _, if_pos h, rfl⟩

namespace DynamicTables

variable {libelf : Libelf} {elf : Elf} {phdr : Elf32_Phdr}

def strtab (t : DynamicTables libelf elf phdr) : Elf_Data := libelf.chunk .ELF_T_BYTE t.strings
def symtabData (t : DynamicTables libelf elf phdr) : Elf_Data := libelf.chunk .ELF_T_SYM t.symbols
def relData (t : DynamicTables libelf elf phdr) : Elf_Data := libelf.chunk .ELF_T_REL t.relocations

def symtab (t : DynamicTables libelf elf phdr) : List Elf32_Sym :=
  ((records 16 decodeSym t.symtabData).toOption).getD []
def rels (t : DynamicTables libelf elf phdr) : List Elf32_Rel := ((records 8 decodeRel t.relData).toOption).getD []

/-- The run once the tables are there. -/
def relocate (t : DynamicTables libelf elf phdr) (stack : Bytes) (junk : UInt32) (header : E32ImageHeader)
    (s : RelocState) : Except Stop (E32ImageHeader × RelocState) := do
  let header ← t.symtab.foldlM (readExportSymbol stack s.out t.strtab) header
  let s ← t.rels.foldlM (checkDynamicRelocation stack junk header t.symtab t.strtab) s
  return (header, s)

/-- The run gets through where the records can be read and each entry is handled. -/
theorem parseDynamic_eq_ok (t : DynamicTables libelf elf phdr) {stack : Bytes} {junk : UInt32} {header : E32ImageHeader}
    {s : RelocState} {r : E32ImageHeader × RelocState} : parseDynamic libelf stack junk elf phdr header s = .ok r ↔
      RecordsRead 16 t.symtabData ∧ RecordsRead 8 t.relData ∧ t.relocate stack junk header s = .ok r := by
  obtain ⟨h1, h2, h3, h4, h5, h6⟩ := t.complete
  have hcomplete : ¬ (t.info.symtabStart = 0 ∨ t.info.symtabSize = 0 ∨ t.info.strtabStart = 0 ∨
      t.info.strtabSize = 0 ∨ t.info.relStart = 0 ∨ t.info.relSize = 0) := by
    simp [h1, h2, h3, h4, h5, h6]
  have hparse : parseDynamic libelf stack junk elf phdr header s = (do
      let symtab ← records 16 decodeSym t.symtabData
      let rels ← records 8 decodeRel t.relData
      let header ← symtab.foldlM (readExportSymbol stack s.out t.strtab) header
      let s ← rels.foldlM (checkDynamicRelocation stack junk header symtab t.strtab) s
      return (header, s)) := by
    unfold parseDynamic
    rw [libelf.getTranslatedElfData_eq .ELF_T_DYN t.segment]
    change (dynamicInfo _ >>= _) = _
    rw [t.info_eq]
    change (if _ then _ else _) = _
    rw [if_neg hcomplete, libelf.getTranslatedElfData_eq .ELF_T_SYM t.symbols,
      libelf.getTranslatedElfData_eq .ELF_T_BYTE t.strings, libelf.getTranslatedElfData_eq .ELF_T_REL t.relocations]
    rfl
  rw [hparse, ← @records_ok_iff _ 16 decodeSym, ← @records_ok_iff _ 8 decodeRel]
  constructor
  · intro h
    obtain ⟨symtab, hsymtab, h⟩ := bind_eq_ok.mp h
    obtain ⟨rels, hrels, h⟩ := bind_eq_ok.mp h
    refine ⟨⟨symtab, hsymtab⟩, ⟨rels, hrels⟩, ?_⟩
    unfold DynamicTables.relocate DynamicTables.symtab DynamicTables.rels
    rw [hsymtab, hrels]
    exact h
  · rintro ⟨⟨symtab, hsymtab⟩, ⟨rels, hrels⟩, h⟩
    unfold DynamicTables.relocate DynamicTables.symtab DynamicTables.rels at h
    rw [hsymtab, hrels] at h
    exact bind_eq_ok.mpr ⟨symtab, hsymtab, bind_eq_ok.mpr ⟨rels, hrels, h⟩⟩

end DynamicTables

/-- The symbols change three fields of the header only, which the relocations do not look at. -/
def SameLayout (header header' : E32ImageHeader) : Prop :=
  ∃ exportDirOffset flags exportDirCount, header' =
    { header with exportDirOffset := exportDirOffset, flags := flags, exportDirCount := exportDirCount }

/-- What is read of a symbol's name that is compared with those of the export table. -/
structure NameCompared (name : Memory) : Prop where
  table : ∃ b, equalsString (chars "DLL##ExportTable") name = some b
  size : equalsString (chars "DLL##ExportTable") name = some false →
    ∃ b, equalsString (chars "DLL##ExportTableSize") name = some b

section
variable {stack out : Bytes} {strtab : Elf_Data} {header header' : E32ImageHeader} {symtab : List Elf32_Sym}
variable {sym : Elf32_Sym}

theorem readExportSymbol_ok (h : readExportSymbol stack out strtab header sym = .ok header') :
    NameCompared (nameAt strtab sym.st_name) ∧ SameLayout header header' := by
  unfold readExportSymbol at h
  obtain ⟨table, htable, h⟩ := bind_eq_ok.mp h
  rw [orCrashes_eq_ok] at htable
  split at h
  · next heq =>
    cases h
    refine ⟨⟨⟨table, htable⟩, fun hne => ?_⟩, _, _, _, rfl⟩
    cases (heq ▸ htable).symm.trans hne
  · obtain ⟨size, hsize, h⟩ := bind_eq_ok.mp h
    have hcompared : NameCompared (nameAt strtab sym.st_name) := ⟨⟨table, htable⟩, fun _ => ⟨size, orCrashes_eq_ok.mp hsize⟩⟩
    split at h
    · cases h
      exact ⟨hcompared, _, _, _, rfl⟩
    · cases h
      exact ⟨hcompared, _, _, _, rfl⟩

theorem readExportSymbol_compared (stack out : Bytes) (header : E32ImageHeader)
    (h : NameCompared (nameAt strtab sym.st_name)) : ∃ header', readExportSymbol stack out strtab header sym = .ok header' := by
  obtain ⟨⟨table, htable⟩, hsize⟩ := h
  unfold readExportSymbol
  simp only [orCrashes_eq_ok.mpr htable, bind, Except.bind]
  cases table with
  | true => exact ⟨_, if_pos rfl⟩
  | false =>
    obtain ⟨size, hsize⟩ := hsize htable
    rw [if_neg Bool.false_ne_true, orCrashes_eq_ok.mpr hsize]
    simp only
    split
    · exact ⟨_, rfl⟩
    · exact ⟨_, rfl⟩

theorem SameLayout.trans {header'' : E32ImageHeader} (h : SameLayout header header') (h' : SameLayout header' header'') :
    SameLayout header header'' := by
  obtain ⟨_, _, _, rfl⟩ := h
  obtain ⟨_, _, _, rfl⟩ := h'
  exact ⟨_, _, _, rfl⟩

theorem readExports_ok (h : symtab.foldlM (readExportSymbol stack out strtab) header = .ok header') :
    (∀ sym ∈ symtab, NameCompared (nameAt strtab sym.st_name)) ∧ SameLayout header header' := by
  induction symtab generalizing header with
  | nil =>
    cases h
    exact ⟨nofun, _, _, _, rfl⟩
  | cons sym symtab ih =>
    rw [List.foldlM_cons] at h
    obtain ⟨h₁, hrun, hrest⟩ := bind_eq_ok.mp h
    obtain ⟨hcompared, hsame⟩ := readExportSymbol_ok hrun
    obtain ⟨hcompared', hsame'⟩ := ih hrest
    exact ⟨List.forall_mem_cons.mpr ⟨hcompared, hcompared'⟩, hsame.trans hsame'⟩

theorem readExports_compared (stack out : Bytes) (hnames : ∀ sym ∈ symtab, NameCompared (nameAt strtab sym.st_name))
    (header : E32ImageHeader) : ∃ header', symtab.foldlM (readExportSymbol stack out strtab) header = .ok header' := by
  induction symtab generalizing header with
  | nil => exact ⟨header, rfl⟩
  | cons sym symtab ih =>
    obtain ⟨hname, hnames⟩ := List.forall_mem_cons.mp hnames
    obtain ⟨h₁, hrun⟩ := readExportSymbol_compared stack out header hname
    obtain ⟨header', hrest⟩ := ih hnames h₁
    refine ⟨header', ?_⟩
    rw [List.foldlM_cons]
    exact bind_eq_ok.mpr ⟨h₁, hrun, hrest⟩

theorem SameLayout.checkDynamicRelocation_eq (h : SameLayout header header') (junk : UInt32) :
    checkDynamicRelocation stack junk header' symtab strtab = checkDynamicRelocation stack junk header symtab strtab := by
  obtain ⟨_, _, _, rfl⟩ := h
  rfl

end

/-- What `main` starts from. -/
def tranStart (out : Bytes) : RelocState := ⟨out, ImportList.empty, RelocationList.empty, RelocationList.empty⟩

theorem offsets_nodup {header : E32ImageHeader} {rels : List Elf32_Rel} (hap : rels.Pairwise (PlacesApart header)) :
    (rels.map Elf32_Rel.r_offset).Nodup := by
  refine List.pairwise_map.mpr (hap.imp fun {rel rel'} hapart heq => ?_)
  have hplace : place header rel = place header rel' := by
    simp only [place, codeWord, dataWord, heq]
  unfold PlacesApart at hapart
  omega

section
variable {header : E32ImageHeader} {symtab : List Elf32_Sym} {strtab : Elf_Data} {rels : List Elf32_Rel}
variable {out : Bytes} {s' : RelocState}

/-- The lists hold each wanted entry once exactly when the handled entries are the wanted ones. -/
theorem listed_iff (hap : rels.Pairwise (PlacesApart header))
    (hadds : TranAdds header symtab strtab rels (tranStart out) s') :
    (ListedOnce rels (WantedImport header symtab strtab) s'.importList.held ∧
      ListedOnce rels (WantedCode header) (s'.relocationList.held.map RelocationCall.offset) ∧
      ListedOnce rels (WantedData header) (s'.dataRelocationList.held.map RelocationCall.offset)) ↔
      ∀ rel ∈ rels, Acts header symtab rel ↔ Wanted header symtab strtab rel := by
  have hkeys := offsets_nodup hap
  have himports := listedOnce_iff (WantedImport header symtab strtab)
    (fun c => c.addr + header.codeBase) hkeys hadds.imports
    (fun rel c hc => by
      unfold importDone at hc
      split at hc
      · obtain ⟨name, -, hcall⟩ := Option.bind_eq_some_iff.mp hc
        obtain ⟨d, -, rfl⟩ := Option.map_eq_some_iff.mp hcall
        exact UInt32.sub_add_cancel _ _
      · cases hc)
    (fun rel c hc => by rw [hc.2]; exact UInt32.sub_add_cancel _ _)
  have hcode := listedOnce_iff (WantedCode header)
    (fun offset => offset + header.codeBase) hkeys hadds.code
    (fun rel offset ho => by
      unfold codeDone at ho
      split at ho
      · obtain ⟨name, -, rfl⟩ := Option.map_eq_some_iff.mp ho
        exact UInt32.sub_add_cancel _ _
      · cases ho)
    (fun rel offset ho => by rw [ho.2.2]; exact UInt32.sub_add_cancel _ _)
  have hdata := listedOnce_iff (WantedData header)
    (fun offset => offset + header.dataBase) hkeys hadds.data
    (fun rel offset ho => by
      unfold dataDone at ho
      split at ho
      · obtain ⟨name, -, rfl⟩ := Option.map_eq_some_iff.mp ho
        exact UInt32.sub_add_cancel _ _
      · cases ho)
    (fun rel offset ho => by rw [ho.2.2]; exact UInt32.sub_add_cancel _ _)
  rw [himports, hcode, hdata]
  constructor
  · rintro ⟨h1, h2, h3⟩ rel hrel
    exact (lists_iff (hadds.found rel hrel)).mp ⟨h1 rel hrel, h2 rel hrel, h3 rel hrel⟩
  · intro h
    exact ⟨fun rel hrel => ((lists_iff (hadds.found rel hrel)).mpr (h rel hrel)).1,
      fun rel hrel => ((lists_iff (hadds.found rel hrel)).mpr (h rel hrel)).2.1,
      fun rel hrel => ((lists_iff (hadds.found rel hrel)).mpr (h rel hrel)).2.2⟩

end

/-- What is read of the tables can be read: the records up to the end of each table, the names of the symbols as far as
they are compared, and those of the entries that are acted on as far as they are parsed. -/
structure DynamicTables.AllRead {libelf : Libelf} {elf : Elf} {phdr : Elf32_Phdr} (t : DynamicTables libelf elf phdr) :
    Prop where
  symtab : RecordsRead 16 t.symtabData
  rels : RecordsRead 8 t.relData
  symbols : ∀ sym ∈ t.symtab, NameCompared (nameAt t.strtab sym.st_name)
  entries : ∀ rel ∈ t.rels, EntryRead t.symtab t.strtab rel

/-- A file that is a dynamic segment with one symbol and one entry against it, at `0x8000`. -/
def oneEntry (name : Bytes) : Elf where
  file := ([6, 56, 0x70000001, 16, 5, 80, 10, name.length, 17, 72, 18, 8, 0, 0].flatMap (leBytes 4)) ++
    List.replicate 16 0 ++ (leBytes 4 0x8000 ++ leBytes 4 2) ++ name
  e_entry := 0
  phdrs := []
  sections := []
  elf_strptr _ _ := none

def oneEntryPhdr : Elf32_Phdr := ⟨PT_DYNAMIC, 0, 0, 56, 56, 0⟩

/-- One word of code. -/
def oneWord : E32ImageHeader := { E32ImageHeader.cleared with codeBase := 0x8000, codeSize := 4 }

def wellNamed : Bytes := chars "#<DLL>d#<\\DLL>1f" ++ [0]
def badlyNamed : Bytes := chars "memcpy" ++ [0]

def wellNamedTables : DynamicTables plainLibelf (oneEntry wellNamed) oneEntryPhdr where
  segment := by unfold Elf.Inside; decide +kernel
  info := ⟨56, 16, 80, 17, 72, 8⟩
  info_eq := by decide +kernel
  complete := by decide
  symbols := by unfold Elf.Inside; decide +kernel
  strings := by unfold Elf.Inside; decide +kernel
  relocations := by unfold Elf.Inside; decide +kernel

def badlyNamedTables : DynamicTables plainLibelf (oneEntry badlyNamed) oneEntryPhdr where
  segment := by unfold Elf.Inside; decide +kernel
  info := ⟨56, 16, 80, 7, 72, 8⟩
  info_eq := by decide +kernel
  complete := by decide
  symbols := by unfold Elf.Inside; decide +kernel
  strings := by unfold Elf.Inside; decide +kernel
  relocations := by unfold Elf.Inside; decide +kernel

theorem oneEntry_inCode : InCode oneWord 0x8000 := by decide +kernel

theorem oneEntry_written {rel : Elf32_Rel} (hrel : rel ∈ [(⟨0x8000, 2⟩ : Elf32_Rel)]) :
    Written oneWord [5, 0, 0, 0] rel := by
  obtain rfl := List.mem_singleton.mp hrel
  exact ⟨fun _ => by decide +kernel, fun hnot => absurd oneEntry_inCode hnot⟩

end GnuPoc.E32
