import GnuPoc.E32.Capability
import GnuPoc.Lib.Updates
import Mathlib.Data.List.Nodup

/-!
# GnuPoc.E32.CapabilitySet — the set that a capability list stands for

A list stands for a run of updates, one for each name.  `getCapabilities` makes the same run, from what is left of the
old set after half of its first word is cleared.
-/

namespace GnuPoc.E32

open GnuPoc.Lib

/-! ### Names -/

/-- Names are compared in capitals. -/
def SameName (name other : Bytes) : Prop := name.map toupper = other.map toupper

instance (name other : Bytes) : Decidable (SameName name other) := inferInstanceAs (Decidable (_ = _))

theorem stricmp_eq_zero {name other : Bytes} : stricmp name other = 0 ↔ SameName name other := foldedCmp_eq_zero

/-- `name` is the name of the capability `bit`. -/
def Names (name : Bytes) (bit : ℕ) : Prop := ∃ cap ∈ capabilityNames, SameName name cap.name ∧ cap.bit = bit

instance (name : Bytes) (bit : ℕ) : Decidable (Names name bit) := by unfold Names; infer_instance

variable {name : Bytes}

theorem names_iff {bit : ℕ} : Names name bit ↔ findCapabilityBit name = some bit := by
  have hnodup : (capabilityNames.map fun cap => cap.name.map toupper).Nodup := by decide +kernel
  simp only [Names, findCapabilityBit, stricmp_eq_zero, Option.map_eq_some_iff]
  constructor
  · rintro ⟨cap, hcap, hname, hbit⟩
    obtain ⟨found, hfound⟩ : ∃ found, capabilityNames.find? (fun cap => SameName name cap.name) = some found := by
      rw [← Option.isSome_iff_exists, List.find?_isSome]
      exact ⟨cap, hcap, by simpa using hname⟩
    have hsame : SameName name found.name := by simpa using List.find?_some hfound
    have heq : found = cap := List.inj_on_of_nodup_map hnodup (List.mem_of_find?_eq_some hfound) hcap
      (hsame.symm.trans hname)
    exact ⟨found, hfound, heq ▸ hbit⟩
  · rintro ⟨cap, hfound, hbit⟩
    exact ⟨cap, List.mem_of_find?_eq_some hfound, by simpa using List.find?_some hfound, hbit⟩

/-- Some capability is `bit`. -/
def Known (bit : ℕ) : Prop := ∃ cap ∈ capabilityNames, cap.bit = bit

instance (bit : ℕ) : Decidable (Known bit) := by unfold Known; infer_instance

theorem Known.lt {bit : ℕ} (h : Known bit) : bit < 20 := by
  obtain ⟨cap, hcap, rfl⟩ := h
  have hall : ∀ cap ∈ capabilityNames, cap.bit < 20 := by decide
  exact hall cap hcap

theorem Names.known {bit : ℕ} (h : Names name bit) : Known bit := by
  obtain ⟨cap, hcap, -, hbit⟩ := h
  exact ⟨cap, hcap, hbit⟩

/-! ### Lists -/

/-- A name, and whether it stands behind a `-`. -/
structure CapabilityToken where
  adds : Bool
  name : Bytes
  deriving DecidableEq, Repr

def isSeparator (c : UInt8) : Bool := c == 43 || c == 32 || c == 45

/-- The names between the separators; `adds` is for the first of them. -/
def tokensFrom (adds : Bool) : Bytes → List CapabilityToken
  | [] => [⟨adds, []⟩]
  | c :: s =>
    if isSeparator c then ⟨adds, []⟩ :: tokensFrom (c != 45) s
    else (tokensFrom adds s).modifyHead fun token => { token with name := c :: token.name }

def capabilityTokens (s : Bytes) : List CapabilityToken := tokensFrom true s

/-- What a name says of the capability `bit`. -/
def CapabilityToken.update (token : CapabilityToken) : Update ℕ := fun bit =>
  if Names token.name bit ∨ token.adds ∧ SameName token.name (chars "all") ∧ Known bit then some token.adds else none

/-- The capabilities that a list stands for. -/
def capabilitySet (s : Bytes) : Set ℕ := Update.run ((capabilityTokens s).map CapabilityToken.update) ∅

/-! ### The words -/

/-- The capabilities in the two words. -/
def Caps.toSet (caps : Caps) : Set ℕ :=
  {bit | if bit < 32 then caps.caps0.toBitVec.getLsbD bit else caps.caps1.toBitVec.getLsbD (bit - 32)}

instance (caps : Caps) (bit : ℕ) : Decidable (bit ∈ caps.toSet) := by
  unfold Caps.toSet
  exact inferInstanceAs (Decidable (_ = true))

theorem mem_setBit {bit : ℕ} (h : bit < 32) {caps : Caps} {other : ℕ} :
    other ∈ (setBit bit caps).toSet ↔ other = bit ∨ other ∈ caps.toSet := by
  simp only [setBit, if_pos h, Caps.toSet, Set.mem_ofPred_eq]
  by_cases hother : other < 32
  · have hiff : bit ≤ other ∧ other - bit = 0 ↔ other = bit := by omega
    simp [hother, UInt32.toBitVec_shiftLeft, Nat.mod_eq_of_lt h, hiff, or_comm]
  · have hne : other ≠ bit := by omega
    simp [hother, hne]

theorem mem_clearBit {bit : ℕ} (h : bit < 32) {caps : Caps} {other : ℕ} :
    other ∈ (clearBit bit caps).toSet ↔ other ≠ bit ∧ other ∈ caps.toSet := by
  simp only [clearBit, if_pos h, Caps.toSet, Set.mem_ofPred_eq]
  by_cases hother : other < 32
  · have hiff : other < bit ∨ other - bit ≠ 0 ↔ other ≠ bit := by omega
    simp [hother, UInt32.toBitVec_shiftLeft, Nat.mod_eq_of_lt h, hiff, and_comm]
  · have hne : other ≠ bit := by omega
    simp [hother, hne]

theorem mem_foldl_setBit {names : List Capability} (h : ∀ cap ∈ names, cap.bit < 32) {caps : Caps} {other : ℕ} :
    other ∈ (names.foldl (fun caps cap => setBit cap.bit caps) caps).toSet ↔
      (∃ cap ∈ names, cap.bit = other) ∨ other ∈ caps.toSet := by
  induction names generalizing caps with
  | nil => simp
  | cons cap names ih =>
    rw [List.foldl_cons, ih fun cap hcap => h cap (List.mem_cons_of_mem _ hcap), mem_setBit (h cap List.mem_cons_self)]
    simp only [List.mem_cons, exists_eq_or_imp, eq_comm (a := other)]
    exact or_left_comm.trans or_assoc.symm

/-! ### The run -/

theorem not_names_all (bit : ℕ) (h : SameName name (chars "all")) : ¬ Names name bit := by
  have hall : ∀ cap ∈ capabilityNames, ¬ SameName (chars "all") cap.name := by decide +kernel
  rintro ⟨cap, hcap, hname, -⟩
  exact hall cap hcap (h.symm.trans hname)

theorem not_names_none (bit : ℕ) (h : SameName name (chars "none")) : ¬ Names name bit := by
  have hall : ∀ cap ∈ capabilityNames, ¬ SameName (chars "none") cap.name := by decide +kernel
  rintro ⟨cap, hcap, hname, -⟩
  exact hall cap hcap (h.symm.trans hname)

theorem mem_setCapability {caps : Caps} {other : ℕ} :
    other ∈ (setCapability name caps).toSet ↔
      (Names name other ∨ SameName name (chars "all") ∧ Known other) ∨ other ∈ caps.toSet := by
  rw [setCapability]
  by_cases hall : SameName name (chars "all")
  · rw [if_pos (stricmp_eq_zero.mpr hall), mem_foldl_setBit fun cap hcap => (Known.lt ⟨cap, hcap, rfl⟩).trans (by decide)]
    simp [hall, not_names_all other hall, Known]
  rw [if_neg (stricmp_eq_zero.not.mpr hall)]
  by_cases hnone : SameName name (chars "none")
  · rw [if_pos (stricmp_eq_zero.mpr hnone)]
    simp [hall, not_names_none other hnone]
  rw [if_neg (stricmp_eq_zero.not.mpr hnone)]
  cases hfind : findCapabilityBit name with
  | none => simp [hall, names_iff, hfind]
  | some bit =>
    have hlt := (names_iff.mpr hfind).known.lt
    simp [hall, names_iff, hfind, mem_setBit (show bit < 32 by omega), eq_comm]

theorem mem_clearCapability {caps : Caps} {other : ℕ} :
    other ∈ (clearCapability name caps).toSet ↔ ¬ Names name other ∧ other ∈ caps.toSet := by
  rw [clearCapability]
  cases hfind : findCapabilityBit name with
  | none => simp [names_iff, hfind]
  | some bit =>
    have hlt := (names_iff.mpr hfind).known.lt
    simp [names_iff, hfind, mem_clearBit (show bit < 32 by omega), eq_comm]

theorem toSet_applyCapability (adds : Bool) (name : Bytes) (caps : Caps) :
    (applyCapability adds name caps).toSet = (CapabilityToken.update ⟨adds, name⟩).apply caps.toSet := by
  ext bit
  cases adds with
  | true =>
    rw [applyCapability, if_pos rfl, mem_setCapability, Update.mem_apply]
    by_cases hsays : Names name bit ∨ SameName name (chars "all") ∧ Known bit
    · simp [CapabilityToken.update, hsays]
    · simp [CapabilityToken.update, hsays]
  | false =>
    rw [applyCapability, if_neg Bool.false_ne_true, mem_clearCapability, Update.mem_apply]
    by_cases hnames : Names name bit
    · simp [CapabilityToken.update, hnames]
    · simp [CapabilityToken.update, hnames]

/-- The loop makes one update after the other; `start` is what it has read of the name it is in. -/
theorem toSet_capabilityLoop (s start : Bytes) (adds : Bool) (caps : Caps) :
    (capabilityLoop s start adds caps).toSet =
      Update.run (((tokensFrom adds s).modifyHead fun token => { token with name := start ++ token.name }).map
        CapabilityToken.update) caps.toSet := by
  induction s generalizing start adds caps with
  | nil => simp [capabilityLoop, tokensFrom, toSet_applyCapability]
  | cons c s ih =>
    have hid : (fun token : CapabilityToken => { token with name := [] ++ token.name }) = id := rfl
    rw [capabilityLoop, tokensFrom]
    by_cases hplus : c = 43 ∨ c = 32
    · have hsep : isSeparator c = true := by rcases hplus with rfl | rfl <;> rfl
      have hadds : (c != 45) = true := by rcases hplus with rfl | rfl <;> rfl
      rw [if_pos hplus, if_pos hsep, ih, hadds, toSet_applyCapability, hid]
      simp
    rw [if_neg hplus]
    by_cases hminus : c = 45
    · subst hminus
      have hsep : isSeparator 45 = true := rfl
      rw [if_pos rfl, if_pos hsep, ih, toSet_applyCapability, hid]
      simp
    · have hsep : isSeparator c = false := by
        rw [not_or] at hplus
        simp [isSeparator, hplus.1, hplus.2, hminus]
      rw [if_neg hminus, if_neg (by simp [hsep]), ih, List.modifyHead_modifyHead]
      simp [Function.comp_def]

theorem mem_cleared {caps : Caps} {bit : ℕ} :
    bit ∈ ({ caps with caps0 := caps.caps0 &&& 0xffff0000 } : Caps).toSet ↔ 16 ≤ bit ∧ bit ∈ caps.toSet := by
  simp only [Caps.toSet, Set.mem_ofPred_eq]
  by_cases hbit : bit < 32
  · have hmask : ∀ bit < 32, (4294901760#32).getLsbD bit = decide (16 ≤ bit) := by decide
    have hget := hmask bit hbit
    rw [BitVec.getLsbD_eq_getElem hbit] at hget
    simp [hbit, hget, and_comm]
  · have hle : 16 ≤ bit := by omega
    simp [hbit, hle]

theorem toSet_getCapabilities (origStr : CString) (caps : Caps) :
    (getCapabilities origStr caps).toSet =
      Update.run ((capabilityTokens origStr.chars).map CapabilityToken.update) {bit ∈ caps.toSet | 16 ≤ bit} := by
  have hid : (fun token : CapabilityToken => { token with name := [] ++ token.name }) = id := rfl
  have hcleared : ({ caps with caps0 := caps.caps0 &&& 0xffff0000 } : Caps).toSet = {bit ∈ caps.toSet | 16 ≤ bit} := by
    ext bit
    rw [mem_cleared, and_comm]
    rfl
  rw [getCapabilities, toSet_capabilityLoop, hid, List.modifyHead_id, id, hcleared, capabilityTokens]

/-- The set is that of a fresh image exactly when the list decides each capability from 16 on that the old set has. -/
theorem getCapabilities_fresh (origStr : CString) (caps : Caps) :
    (getCapabilities origStr caps).toSet = capabilitySet origStr.chars ↔
      ∀ bit ∈ caps.toSet, 16 ≤ bit →
        ∃ token ∈ capabilityTokens origStr.chars, Names token.name bit ∨
          token.adds = true ∧ SameName token.name (chars "all") ∧ Known bit := by
  rw [toSet_getCapabilities, capabilitySet, Update.run_eq_run_iff]
  have hdecided : ∀ bit, Update.Decided ((capabilityTokens origStr.chars).map CapabilityToken.update) bit ↔
      ∃ token ∈ capabilityTokens origStr.chars, Names token.name bit ∨
        token.adds = true ∧ SameName token.name (chars "all") ∧ Known bit := by
    intro bit
    simp [Update.Decided, CapabilityToken.update, or_iff_not_imp_left]
  constructor
  · intro h bit hbit hle
    by_contra hnot
    exact ((h bit ((hdecided bit).not.mpr hnot)).mp ⟨hbit, hle⟩).elim
  · intro h bit hnot
    refine iff_of_false ?_ (Set.notMem_empty bit)
    rintro ⟨hbit, hle⟩
    exact hnot ((hdecided bit).mpr (h bit hbit hle))

/-- An image that has `Location` keeps it when it is edited to have `TCB` only. -/
theorem getCapabilities_keeps :
    ¬ (getCapabilities ⟨chars "TCB", by decide⟩ ⟨0x20000, 0⟩).toSet = capabilitySet (chars "TCB") := by
  have hold : 17 ∈ (getCapabilities ⟨chars "TCB", by decide⟩ ⟨0x20000, 0⟩).toSet := by decide +kernel
  have hnew : ¬ Update.Decided ((capabilityTokens (chars "TCB")).map CapabilityToken.update) 17 := by
    unfold Update.Decided
    decide +kernel
  intro h
  rw [h, capabilitySet, Update.mem_run_of_not_decided hnew] at hold
  exact hold

end GnuPoc.E32
