import GnuPoc.E32.RelocationList

/-!
# GnuPoc.E32.RelocationTypes — which base the loader adds to a relocated word

The type of an entry says whether its value moves with the code or with the data.  The sums that end the two ranges are
those of the program, on 32 bits.  `writeSublist` takes the end of the code for code before it looks at the data.
-/

namespace GnuPoc.E32

/-! ### Ranges of addresses -/

/-- The addresses from `base` up to `limit`, which is not one of them. -/
structure AddressRange where
  base : UInt32
  limit : UInt32

namespace AddressRange

def Contains (r : AddressRange) (addr : UInt32) : Prop := r.base ≤ addr ∧ addr < r.limit

/-- `addr` is the first address of the range. -/
def Starts (r : AddressRange) (addr : UInt32) : Prop := addr = r.base ∧ r.base ≤ r.limit

/-- `addr` is the end address of the range. -/
def Ends (r : AddressRange) (addr : UInt32) : Prop := addr = r.limit ∧ r.base ≤ r.limit

def Disjoint (r s : AddressRange) : Prop := ∀ addr, ¬ (r.Contains addr ∧ s.Contains addr)

instance (r : AddressRange) (addr : UInt32) : Decidable (r.Contains addr) := inferInstanceAs (Decidable (_ ∧ _))
instance (r : AddressRange) (addr : UInt32) : Decidable (r.Starts addr) := inferInstanceAs (Decidable (_ ∧ _))
instance (r : AddressRange) (addr : UInt32) : Decidable (r.Ends addr) := inferInstanceAs (Decidable (_ ∧ _))

theorem Disjoint.bounds {r s : AddressRange} (h : r.Disjoint s) :
    r.limit.toNat ≤ r.base.toNat ∨ s.limit.toNat ≤ s.base.toNat ∨ r.limit.toNat ≤ s.base.toNat ∨
      s.limit.toNat ≤ r.base.toNat := by
  have hr := h r.base
  have hs := h s.base
  simp only [Contains, UInt32.le_iff_toNat_le, UInt32.lt_iff_toNat_lt] at hr hs
  omega

theorem Disjoint.of_le {r s : AddressRange} (h : r.limit ≤ s.base) : r.Disjoint s := by
  rintro addr ⟨⟨-, hr⟩, ⟨hs, -⟩⟩
  rw [UInt32.le_iff_toNat_le] at h hs
  rw [UInt32.lt_iff_toNat_lt] at hr
  omega

end AddressRange

/-! ### Types -/

def E32ImageHeader.codeRange (header : E32ImageHeader) : AddressRange :=
  ⟨header.codeBase, header.codeBase + header.codeSize.toUInt32⟩

def E32ImageHeader.dataRange (header : E32ImageHeader) : AddressRange :=
  ⟨header.dataBase, header.dataBase + header.dataSize.toUInt32 + header.bssSize.toUInt32⟩

/-- The bits above the offset. -/
def typeBits (slot : UInt16) : UInt16 := slot &&& 0xf000

/-- An address is typed by the range it is in; the end of a range counts as in it where no other range starts. -/
def TypedByRange (header : E32ImageHeader) (addr : UInt32) (type : UInt16) : Prop :=
  (type = KTextRelocType ↔
      header.codeRange.Contains addr ∨ header.codeRange.Ends addr ∧ ¬ header.dataRange.Starts addr) ∧
    (type = KDataRelocType ↔
      header.dataRange.Contains addr ∨ header.dataRange.Ends addr ∧ ¬ header.codeRange.Starts addr)

instance (header : E32ImageHeader) (addr : UInt32) (type : UInt16) : Decidable (TypedByRange header addr type) :=
  inferInstanceAs (Decidable (_ ∧ _))

namespace RelocationList

theorem offset_and_type (c : RelocationCall) : c.relocation.offset &&& 0xf000 = 0 := by
  have hmask : (0xfff : UInt32).toUInt16 &&& 0xf000 = 0 := by decide
  rw [RelocationCall.relocation, UInt32.toUInt16_and, UInt16.and_assoc, hmask, UInt16.and_zero]

theorem typeBits_slot (header : E32ImageHeader) (c : RelocationCall) :
    typeBits (slot header c.relocation) = relocType header c.value := by
  have hmask : ∀ type : UInt16, type = 0 ∨ type = 0x1000 ∨ type = 0x2000 → type &&& 0xf000 = type := by
    rintro type (rfl | rfl | rfl)
    · rfl
    · rfl
    · rfl
  have hzero := offset_and_type c
  rw [← UInt16.toNat_inj, UInt16.toNat_and] at hzero
  rw [← hmask _ (relocType_cases header c.value), typeBits, slot, ← UInt16.toNat_inj, UInt16.toNat_and,
    UInt16.toNat_or, Nat.and_or_distrib_right, hzero, UInt16.toNat_and]
  exact Nat.zero_or _

theorem relocType_eq_text (header : E32ImageHeader) (addr : UInt32) :
    relocType header addr = KTextRelocType ↔ header.codeRange.base ≤ addr ∧ addr ≤ header.codeRange.limit := by
  rw [relocType]
  split
  · next h => exact iff_of_true rfl h
  · next h =>
    refine iff_of_false ?_ h
    split
    · decide
    · decide

theorem relocType_eq_data (header : E32ImageHeader) (addr : UInt32) :
    relocType header addr = KDataRelocType ↔
      ¬ (header.codeRange.base ≤ addr ∧ addr ≤ header.codeRange.limit) ∧
        header.dataRange.base ≤ addr ∧ addr ≤ header.dataRange.limit := by
  rw [relocType]
  split
  · next h => exact iff_of_false (by decide) fun hnot => hnot.1 h
  · next h =>
    split
    · next hdata => exact iff_of_true rfl ⟨h, hdata⟩
    · next hdata => exact iff_of_false (by decide) fun hboth => hdata hboth.2

end RelocationList

/-- The type follows the ranges unless the value ends the code where the data starts or goes on, or is the place of
empty data inside the code. -/
theorem slot_typed_iff (header : E32ImageHeader) (c : RelocationCall)
    (hdisjoint : header.codeRange.Disjoint header.dataRange) :
    TypedByRange header c.value (typeBits (RelocationList.slot header c.relocation)) ↔
      ¬ (header.codeRange.Ends c.value ∧ (header.dataRange.Starts c.value ∨ header.dataRange.Contains c.value)) ∧
        ¬ (header.dataRange.Starts c.value ∧ header.dataRange.Ends c.value ∧ header.codeRange.Contains c.value ∧
          ¬ header.codeRange.Starts c.value) := by
  have hbounds := hdisjoint.bounds
  rw [RelocationList.typeBits_slot, TypedByRange, RelocationList.relocType_eq_text, RelocationList.relocType_eq_data]
  simp only [AddressRange.Contains, AddressRange.Starts, AddressRange.Ends, UInt32.le_iff_toNat_le,
    UInt32.lt_iff_toNat_lt, ← UInt32.toNat_inj]
  generalize c.value.toNat = addr at *
  generalize header.codeRange.base.toNat = codeBase at *
  generalize header.codeRange.limit.toNat = codeLimit at *
  generalize header.dataRange.base.toNat = dataBase at *
  generalize header.dataRange.limit.toNat = dataLimit at *
  omega

/-- The data are not behind the code. -/
def headerApart : E32ImageHeader :=
  { E32ImageHeader.cleared with codeBase := 0x8000, codeSize := 0x1000, dataBase := 0x400000, dataSize := 0x10 }

theorem slot_typed_apart :
    TypedByRange headerApart 0x400000
      (typeBits (RelocationList.slot headerApart (RelocationCall.relocation ⟨0x1004, 0x400000⟩))) :=
  (slot_typed_iff headerApart ⟨0x1004, 0x400000⟩ (AddressRange.Disjoint.of_le (by decide))).mpr (by decide)

/-- The data follow the code. -/
def headerJoined : E32ImageHeader :=
  { E32ImageHeader.cleared with codeBase := 0x8000, codeSize := 0x1000, dataBase := 0x9000, dataSize := 0x10 }

/-- The address of the first word of the data is typed as code. -/
theorem slot_data_as_text :
    headerJoined.codeRange.Disjoint headerJoined.dataRange ∧ headerJoined.dataRange.Contains 0x9000 ∧
      ¬ TypedByRange headerJoined 0x9000
        (typeBits (RelocationList.slot headerJoined (RelocationCall.relocation ⟨0x1004, 0x9000⟩))) :=
  ⟨AddressRange.Disjoint.of_le (by decide), by decide, by decide⟩

end GnuPoc.E32
