import GnuPoc.Sis.RoundTrip

/-!
# GnuPoc.Sis.Canonical — which accepted byte strings are written back unchanged

`Canonical` is a grammar of byte strings, stated without the loader: every field is framed by its true
length and zero padding, scalars have their exact size, strings an even length, capability blobs whole
words.  The loader accepts more: it skips padding without looking at it, and several `Load` functions
take what they need and ignore the rest.  An accepted string is reproduced by `CopyHeaderData` exactly
when it is canonical.
-/

namespace GnuPoc.Sis

open GnuPoc.Lib

/-! ### The grammar -/

/-- The payloads of a leaf class. -/
def LeafClass.Payload : LeafClass → Bytes → Prop
  | SISString, b => b.length % 2 = 0
  | SISCompressed, b => 12 ≤ b.length ∧
      (ofLE (b.take 4) = 0 → ofLE ((b.drop 4).take 8) = b.length - 12)
  | SISVersion, b => b.length = 12
  | SISDate, b => b.length = 4
  | SISTime, b => b.length = 3
  | SISUid, b => b.length = 4
  | SISLanguage, b => b.length = 4
  | SISProperty, b => b.length = 8
  | SISControllerChecksum, b => b.length = 2
  | SISDataChecksum, b => b.length = 2
  | SISBlob, _ => True
  | SISDataIndex, b => b.length = 4
  | SISCapabilities, b => b.length % 4 = 0 ∧ b.length ≤ 100

def CompoundClass.leadingLength : CompoundClass → ℕ
  | SISHash => 4
  | SISExpression => 8
  | _ => 0

/-- A payload of its length behind a type word and a length word, filled with zeros to a whole word. -/
def framed (aType : UInt32) (b : Bytes) : Bytes :=
  writeUint32 aType ++ (writeUint32 (UInt32.ofNat b.length) ++ (b ++ List.replicate (padding b.length) 0))

/-- The same without the type word, as array elements are stored. -/
def framedElement (b : Bytes) : Bytes :=
  writeUint32 (UInt32.ofNat b.length) ++ (b ++ List.replicate (padding b.length) 0)

mutual
inductive CanonicalPayload : FieldClass → Bytes → Prop
  | leaf (c : LeafClass) (b : Bytes) (h : c.Payload b) : CanonicalPayload (.leaf c) b
  | array (iType : UInt32) (b : Bytes) (h : CanonicalArray iType b) :
      CanonicalPayload .SISArray (writeUint32 iType ++ b)
  | compound (c : CompoundClass) (lead b trail : Bytes) (hl : lead.length = c.leadingLength)
      (ht : trail.length = c.trailingLength) (h : CanonicalElements b) :
      CanonicalPayload (.compound c) (lead ++ b ++ trail)
inductive CanonicalElements : Bytes → Prop
  | nil : CanonicalElements []
  | cons (c : FieldClass) (b rest : Bytes) (h : CanonicalPayload c b) (hs : CanonicalElements rest) :
      CanonicalElements (framed c.id b ++ rest)
inductive CanonicalArray : UInt32 → Bytes → Prop
  | nil (iType : UInt32) : CanonicalArray iType []
  | cons (c : FieldClass) (b rest : Bytes) (h : CanonicalPayload c b) (hs : CanonicalArray c.id rest) :
      CanonicalArray c.id (framedElement b ++ rest)
end

/-- One field in canonical form. -/
def Canonical (s : Bytes) : Prop := ∃ c b, CanonicalPayload c b ∧ s = framed c.id b

theorem copyHeader_eq_framed {t : UInt32} {n : ℕ} {b : Bytes} (h : n = b.length) :
    copyHeader t n b = framed t b := by
  subst h
  have hp : paddedLength b.length - b.length = padding b.length := by
    unfold paddedLength
    omega
  simp only [copyHeader, copyData, framed, hp, List.append_assoc]

theorem copyElement_eq_framedElement {n : ℕ} {b : Bytes} (h : n = b.length) :
    writeUint32 (UInt32.ofNat n) ++ copyData n b = framedElement b := by
  subst h
  have hp : paddedLength b.length - b.length = padding b.length := by
    unfold paddedLength
    omega
  simp only [copyData, framedElement, hp]

/-! ### Written fields are canonical -/

theorem Leaf.payload_copyFieldData {l : Leaf} (hs : l.Sound) : l.cls.Payload l.copyFieldData := by
  cases l with
  | SISString iStr =>
    simp [cls, LeafClass.Payload, copyFieldData, List.length_flatMap]
  | SISCompressed c =>
    simp only [cls, LeafClass.Payload, copyFieldData, List.length_append, length_writeUint32,
      length_writeUint64, List.append_assoc]
    refine ⟨by omega, fun h0 => ?_⟩
    rw [List.take_left' (length_writeUint32 _), ofLE_writeUint32] at h0
    rw [List.drop_left' (length_writeUint32 _), List.take_left' (length_writeUint64 _), ofLE_writeUint64]
    rcases hs with ⟨_, hc, b, hu, hb⟩ | ⟨ha, _⟩
    · simp only [SISCompressed.stored, hc, hu, Option.getD_some, hb]
      omega
    · exact absurd (UInt32.toNat.inj h0) ha
  | SISCapabilities iCapabilities =>
    have h100 : iCapabilities.length ≤ 100 := hs
    simp only [cls, LeafClass.Payload, copyFieldData, List.length_append, List.length_replicate, roundUp4]
    omega
  | SISBlob b => exact trivial
  | _ => simp [cls, LeafClass.Payload, copyFieldData]

theorem Compound.length_leading (c : Compound) : c.leading.length = c.cls.leadingLength := by
  cases c <;> simp [leading, cls, CompoundClass.leadingLength]

mutual

theorem SISField.canonicalPayload : ∀ {f : SISField}, f.Sound → f.copyFieldData.length < 2 ^ 32 →
    CanonicalPayload f.cls f.copyFieldData
  | .leaf l, hs, _ => .leaf _ _ (Leaf.payload_copyFieldData hs)
  | .SISArray iType iElements, hs, hlt => by
    simp only [SISField.copyFieldData, List.length_append] at hlt
    exact .array _ _ (canonicalArray hs.1 hs.2 (by omega))
  | .compound c iElements, hs, hlt => by
    simp only [SISField.copyFieldData, List.length_append] at hlt
    exact .compound _ _ _ _ c.length_leading c.length_trailing (canonicalElements hs (by omega))

theorem canonicalElements : ∀ {fs : List SISField}, SoundAll fs → (copyElements fs).length < 2 ^ 32 →
    CanonicalElements (copyElements fs)
  | [], _, _ => .nil
  | f :: fs, hs, hlt => by
    have hle := length_le_copyData f.length f.copyFieldData
    simp only [copyElements, copyHeader, List.length_append, length_writeUint32] at hlt
    have hf : f.copyFieldData.length < 2 ^ 32 := by omega
    rw [copyElements, copyHeader_eq_framed (SISField.length_copyFieldData hs.1 hf)]
    exact .cons _ _ _ (SISField.canonicalPayload hs.1 hf) (canonicalElements hs.2 (by omega))

theorem canonicalArray : ∀ {fs : List SISField} {iType : UInt32}, (∀ f ∈ fs, f.id = iType) →
    SoundAll fs → (copyArrayElements fs).length < 2 ^ 32 → CanonicalArray iType (copyArrayElements fs)
  | [], _, _, _, _ => .nil _
  | f :: fs, iType, hid, hs, hlt => by
    have hle := length_le_copyData f.length f.copyFieldData
    simp only [copyArrayElements, List.length_append, length_writeUint32] at hlt
    have hf : f.copyFieldData.length < 2 ^ 32 := by omega
    have hfs := canonicalArray (fun g hg => hid g (List.mem_cons_of_mem _ hg)) hs.2 (by omega)
    rw [copyArrayElements, copyElement_eq_framedElement (SISField.length_copyFieldData hs.1 hf)]
    rw [← hid f List.mem_cons_self] at hfs ⊢
    exact .cons _ _ _ (SISField.canonicalPayload hs.1 hf) hfs

end

theorem SISField.canonical_copyHeaderData {f : SISField} (hs : f.Sound)
    (hlt : f.copyHeaderData.length < 2 ^ 32) : Canonical f.copyHeaderData := by
  obtain ⟨hlen, hhd⟩ := length_copyHeaderData hs hlt
  have hle := length_le_copyData f.length f.copyFieldData
  have hf : f.copyFieldData.length < 2 ^ 32 := by
    simp only [copyHeaderData, copyHeader, List.length_append] at hlt
    omega
  exact ⟨f.cls, f.copyFieldData, canonicalPayload hs hf, copyHeader_eq_framed hlen⟩

/-! ### Canonical strings are written fields -/

theorem exists_string {n : ℕ} : ∀ {b : Bytes}, b.length = 2 * n →
    ∃ iStr : List UInt32, (∀ c ∈ iStr, c.toNat < 2 ^ 16) ∧
      iStr.flatMap (fun c => writeUint16 (UInt16.ofNat c.toNat)) = b := by
  induction n with
  | zero =>
    intro b hb
    exact ⟨[], by simp, (List.eq_nil_of_length_eq_zero hb).symm⟩
  | succ n ih =>
    intro b hb
    obtain ⟨v, r, rfl, hr⟩ := exists_writeUint16 (b := b) (by omega)
    obtain ⟨cs, hcs, hbytes⟩ := ih (b := r) (by omega)
    have hv : v.toNat < 2 ^ 16 := v.toNat_lt
    have hc : (UInt32.ofNat v.toNat).toNat = v.toNat := by
      rw [UInt32.toNat_ofNat', Nat.mod_eq_of_lt (by omega)]
    refine ⟨UInt32.ofNat v.toNat :: cs, ?_, ?_⟩
    · rintro c (_ | ⟨_, hmem⟩)
      · omega
      · exact hcs c hmem
    · rw [List.flatMap_cons, hbytes, hc, UInt16.ofNat_toNat]

/-- Every payload of a class is what a leaf writes. -/
theorem LeafClass.exists_leaf {c : LeafClass} {b : Bytes} (h : c.Payload b) :
    ∃ l : Leaf, l.cls = c ∧ l.copyFieldData = b ∧ l.Sound ∧ l.Exact := by
  cases c with
  | SISString =>
    obtain ⟨iStr, hc, hb⟩ := exists_string (n := b.length / 2) (b := b) (by
      have : b.length % 2 = 0 := h
      omega)
    exact ⟨.SISString iStr, rfl, hb, trivial, hc⟩
  | SISCompressed =>
    obtain ⟨h12, hnone⟩ := h
    obtain ⟨alg, r, rfl, hr⟩ := exists_writeUint32 (b := b) (by omega)
    obtain ⟨size, r, rfl, hr'⟩ := exists_writeUint64 (b := r) (by omega)
    rw [List.take_left' (length_writeUint32 _), ofLE_writeUint32, List.drop_left' (length_writeUint32 _),
      List.take_left' (length_writeUint64 _), ofLE_writeUint64] at hnone
    by_cases ha : alg = ECompressNone
    · refine ⟨.SISCompressed ⟨alg, size, some r, none⟩, rfl, ?_, Or.inl ⟨ha, rfl, r, rfl, ?_⟩, trivial⟩
      · simp [Leaf.copyFieldData, SISCompressed.stored, List.append_assoc]
      · have := hnone (by rw [ha]; rfl)
        simp only [List.length_append, length_writeUint32, length_writeUint64] at this ⊢
        omega
    · refine ⟨.SISCompressed ⟨alg, size, none, some r⟩, rfl, ?_, Or.inr ⟨ha, rfl, r, rfl⟩, trivial⟩
      simp [Leaf.copyFieldData, SISCompressed.stored, List.append_assoc]
  | SISCapabilities =>
    have hr : roundUp4 b.length - b.length = 0 := by
      have h4 : b.length % 4 = 0 := h.1
      unfold roundUp4
      omega
    refine ⟨.SISCapabilities b, rfl, ?_, h.2, h.1⟩
    simp only [Leaf.copyFieldData, hr, List.replicate_zero, List.append_nil]
  | SISBlob => exact ⟨.SISBlob b, rfl, rfl, trivial, trivial⟩
  | SISVersion =>
    have h12 : b.length = 12 := h
    obtain ⟨x, r, rfl, hr⟩ := exists_writeUint32 (b := b) (by omega)
    obtain ⟨y, r, rfl, hr'⟩ := exists_writeUint32 (b := r) (by omega)
    obtain ⟨z, r, rfl, hr''⟩ := exists_writeUint32 (b := r) (by omega)
    obtain rfl : r = [] := List.eq_nil_of_length_eq_zero (by omega)
    exact ⟨.SISVersion x y z, rfl, by simp [Leaf.copyFieldData], trivial, trivial⟩
  | SISDate =>
    have h4 : b.length = 4 := h
    obtain ⟨x, r, rfl, hr⟩ := exists_writeUint16 (b := b) (by omega)
    obtain ⟨y, r, rfl, hr'⟩ := exists_writeUint8 (b := r) (by omega)
    obtain ⟨z, r, rfl, hr''⟩ := exists_writeUint8 (b := r) (by omega)
    obtain rfl : r = [] := List.eq_nil_of_length_eq_zero (by omega)
    exact ⟨.SISDate x y z, rfl, by simp [Leaf.copyFieldData], trivial, trivial⟩
  | SISTime =>
    have h3 : b.length = 3 := h
    obtain ⟨x, r, rfl, hr⟩ := exists_writeUint8 (b := b) (by omega)
    obtain ⟨y, r, rfl, hr'⟩ := exists_writeUint8 (b := r) (by omega)
    obtain ⟨z, r, rfl, hr''⟩ := exists_writeUint8 (b := r) (by omega)
    obtain rfl : r = [] := List.eq_nil_of_length_eq_zero (by omega)
    exact ⟨.SISTime x y z, rfl, by simp [Leaf.copyFieldData], trivial, trivial⟩
  | SISProperty =>
    have h8 : b.length = 8 := h
    obtain ⟨x, r, rfl, hr⟩ := exists_writeUint32 (b := b) (by omega)
    obtain ⟨y, r, rfl, hr'⟩ := exists_writeUint32 (b := r) (by omega)
    obtain rfl : r = [] := List.eq_nil_of_length_eq_zero (by omega)
    exact ⟨.SISProperty x y, rfl, by simp [Leaf.copyFieldData], trivial, trivial⟩
  | SISUid | SISLanguage | SISDataIndex =>
    have h4 : b.length = 4 := h
    obtain ⟨v, r, rfl, hr⟩ := exists_writeUint32 (b := b) (by omega)
    obtain rfl : r = [] := List.eq_nil_of_length_eq_zero (by omega)
    first
      | exact ⟨.SISUid v, rfl, by simp [Leaf.copyFieldData], trivial, trivial⟩
      | exact ⟨.SISLanguage v, rfl, by simp [Leaf.copyFieldData], trivial, trivial⟩
      | exact ⟨.SISDataIndex v, rfl, by simp [Leaf.copyFieldData], trivial, trivial⟩
  | SISControllerChecksum | SISDataChecksum =>
    have h2 : b.length = 2 := h
    obtain ⟨v, r, rfl, hr⟩ := exists_writeUint16 (b := b) (by omega)
    obtain rfl : r = [] := List.eq_nil_of_length_eq_zero (by omega)
    first
      | exact ⟨.SISControllerChecksum v, rfl, by simp [Leaf.copyFieldData], trivial, trivial⟩
      | exact ⟨.SISDataChecksum v, rfl, by simp [Leaf.copyFieldData], trivial, trivial⟩

theorem CompoundClass.exists_compound {c : CompoundClass} {lead trail : Bytes}
    (hl : lead.length = c.leadingLength) (ht : trail.length = c.trailingLength) :
    ∃ obj : Compound, obj.cls = c ∧ obj.leading = lead ∧ obj.trailing = trail := by
  cases c with
  | plain c =>
    exact ⟨.plain c, rfl, (List.eq_nil_of_length_eq_zero hl).symm, (List.eq_nil_of_length_eq_zero ht).symm⟩
  | SISInfo =>
    have h2 : trail.length = 2 := ht
    obtain ⟨x, r, rfl, hr⟩ := exists_writeUint8 (b := trail) (by omega)
    obtain ⟨y, r, rfl, hr'⟩ := exists_writeUint8 (b := r) (by omega)
    obtain rfl : r = [] := List.eq_nil_of_length_eq_zero (by omega)
    exact ⟨.SISInfo x y, rfl, (List.eq_nil_of_length_eq_zero hl).symm, by simp [Compound.trailing]⟩
  | SISHash =>
    have h4 : lead.length = 4 := hl
    obtain ⟨x, r, rfl, hr⟩ := exists_writeUint32 (b := lead) (by omega)
    obtain rfl : r = [] := List.eq_nil_of_length_eq_zero (by omega)
    exact ⟨.SISHash x, rfl, by simp [Compound.leading], (List.eq_nil_of_length_eq_zero ht).symm⟩
  | SISExpression =>
    have h8 : lead.length = 8 := hl
    obtain ⟨x, r, rfl, hr⟩ := exists_writeUint32 (b := lead) (by omega)
    obtain ⟨y, r, rfl, hr'⟩ := exists_writeUint32 (b := r) (by omega)
    obtain rfl : r = [] := List.eq_nil_of_length_eq_zero (by omega)
    exact ⟨.SISExpression x y, rfl, by simp [Compound.leading], (List.eq_nil_of_length_eq_zero ht).symm⟩
  | SISFileDescription =>
    have h28 : trail.length = 28 := ht
    obtain ⟨op, r, rfl, hr⟩ := exists_writeUint32 (b := trail) (by omega)
    obtain ⟨opt, r, rfl, hr'⟩ := exists_writeUint32 (b := r) (by omega)
    obtain ⟨len, r, rfl, hr''⟩ := exists_writeUint64 (b := r) (by omega)
    obtain ⟨ulen, r, rfl, hr'''⟩ := exists_writeUint64 (b := r) (by omega)
    obtain ⟨idx, r, rfl, hr''''⟩ := exists_writeUint32 (b := r) (by omega)
    obtain rfl : r = [] := List.eq_nil_of_length_eq_zero (by omega)
    exact ⟨.SISFileDescription op opt len ulen idx, rfl, (List.eq_nil_of_length_eq_zero hl).symm,
      by simp [Compound.trailing]⟩

theorem length_framed (t : UInt32) (b : Bytes) : (framed t b).length = 8 + paddedLength b.length := by
  simp only [framed, List.length_append, length_writeUint32, List.length_replicate, paddedLength]
  omega

theorem length_framedElement (b : Bytes) : (framedElement b).length = 4 + paddedLength b.length := by
  simp only [framedElement, List.length_append, length_writeUint32, List.length_replicate, paddedLength]

mutual

theorem CanonicalPayload.exists_field : ∀ {c : FieldClass} {b : Bytes}, CanonicalPayload c b →
    b.length < 2 ^ 32 → ∃ f : SISField, f.cls = c ∧ f.copyFieldData = b ∧ f.Sound ∧ f.Exact
  | _, _, .leaf c b h, _ => by
    obtain ⟨l, hc, hb, hs, he⟩ := LeafClass.exists_leaf h
    exact ⟨.leaf l, by rw [SISField.cls, hc], hb, hs, he⟩
  | _, _, .array iType b h, hlt => by
    rw [List.length_append] at hlt
    obtain ⟨fs, hid, hb, hs, he⟩ := CanonicalArray.exists_fields h (by omega)
    exact ⟨.SISArray iType fs, rfl, by rw [SISField.copyFieldData, hb], ⟨hid, hs⟩, he⟩
  | _, _, .compound c lead b trail hl ht h, hlt => by
    simp only [List.length_append] at hlt
    obtain ⟨obj, hc, hlead, htrail⟩ := CompoundClass.exists_compound hl ht
    obtain ⟨fs, hb, hs, he⟩ := CanonicalElements.exists_fields h (by omega)
    exact ⟨.compound obj fs, by rw [SISField.cls, hc],
      by rw [SISField.copyFieldData, hlead, hb, htrail], hs, he⟩

theorem CanonicalElements.exists_fields : ∀ {b : Bytes}, CanonicalElements b → b.length < 2 ^ 32 →
    ∃ fs : List SISField, copyElements fs = b ∧ SoundAll fs ∧ ExactAll fs
  | _, .nil, _ => ⟨[], rfl, trivial, trivial⟩
  | _, .cons c b rest h hrest, hlt => by
    have hle := le_paddedLength b.length
    rw [List.length_append, length_framed] at hlt
    have ih := CanonicalPayload.exists_field h (by omega)
    have ihs := CanonicalElements.exists_fields hrest (by omega)
    obtain ⟨⟨f, rfl, rfl, hs, he⟩, fs, rfl, hss, hee⟩ := And.intro ih ihs
    refine ⟨f :: fs, ?_, ⟨hs, hss⟩, ⟨he, hee⟩⟩
    rw [copyElements, copyHeader_eq_framed (SISField.length_copyFieldData hs (by omega))]
    rfl

theorem CanonicalArray.exists_fields : ∀ {iType : UInt32} {b : Bytes}, CanonicalArray iType b →
    b.length < 2 ^ 32 → ∃ fs : List SISField, (∀ f ∈ fs, f.id = iType) ∧ copyArrayElements fs = b ∧
      SoundAll fs ∧ ExactAll fs
  | _, _, .nil _, _ => ⟨[], by simp, rfl, trivial, trivial⟩
  | _, _, .cons c b rest h hrest, hlt => by
    have hle := le_paddedLength b.length
    rw [List.length_append, length_framedElement] at hlt
    have ih := CanonicalPayload.exists_field h (by omega)
    have ihs := CanonicalArray.exists_fields hrest (by omega)
    obtain ⟨⟨f, rfl, rfl, hs, he⟩, fs, hid, rfl, hss, hee⟩ := And.intro ih ihs
    refine ⟨f :: fs, ?_, ?_, ⟨hs, hss⟩, ⟨he, hee⟩⟩
    · rintro g (_ | ⟨_, hg⟩)
      · rfl
      · exact hid g hg
    · rw [copyArrayElements,
        copyElement_eq_framedElement (SISField.length_copyFieldData hs (by omega))]

end

/-- **The grammar describes the writer**: canonical strings are the bytes of sound exact trees. -/
theorem canonical_iff {s : Bytes} (hlt : s.length < 2 ^ 32) :
    Canonical s ↔ ∃ f : SISField, f.Sound ∧ f.Exact ∧ f.copyHeaderData = s := by
  constructor
  · rintro ⟨c, b, hp, rfl⟩
    have hle := le_paddedLength b.length
    rw [length_framed] at hlt
    obtain ⟨f, rfl, rfl, hs, he⟩ := hp.exists_field (by omega)
    exact ⟨f, hs, he, copyHeader_eq_framed (SISField.length_copyFieldData hs (by omega))⟩
  · rintro ⟨f, hs, -, rfl⟩
    exact f.canonical_copyHeaderData hs hlt

/-- **Which accepted strings are reproduced.**  An accepted string, fully consumed or not, is what
`CopyHeaderData` writes for the field read from it exactly if it is canonical. -/
theorem loadBuffer_copyHeaderData_iff (s : Bytes) (f : SISField) (cur : Cursor) (hlt : s.length < 2 ^ 32)
    (hload : loadBuffer s = .ok (some f, cur)) :
    f.copyHeaderData = s ↔ Canonical s := by
  have hs : f.Sound := loadOneField_sound false _ hload
  constructor
  · rintro rfl
    exact f.canonical_copyHeaderData hs hlt
  · intro hc
    obtain ⟨g, hgs, hge, rfl⟩ := (canonical_iff hlt).mp hc
    have hg := (copyHeaderData_loadBuffer g hgs hge hlt).2.2
    rw [hload] at hg
    injection hg with hg
    injection hg with hg
    injection hg with hg
    rw [hg]

/-- A one-letter string whose payload has an odd byte behind the letter. -/
def oddString : Bytes := [1, 0, 0, 0, 3, 0, 0, 0, 0x41, 0, 0x42, 0]

/-- The odd byte is dropped. -/
theorem loadBuffer_oddString :
    loadBuffer oddString = .ok (some (.leaf (.SISString [0x41])), ⟨[], 0⟩) ∧
      (SISField.leaf (.SISString [0x41])).copyHeaderData ≠ oddString := by
  refine ⟨rfl, by decide⟩

theorem loadBuffer_copyHeaderData_iff_string :
    (SISField.leaf (.SISString [0x41])).copyHeaderData = oddString ↔ Canonical oddString :=
  loadBuffer_copyHeaderData_iff oddString _ ⟨[], 0⟩ (by decide) rfl

end GnuPoc.Sis
