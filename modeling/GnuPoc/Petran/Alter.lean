import GnuPoc.Petran.CheckedUid

/-!
# GnuPoc.Petran.Alter — altering an image (`petran.cpp`, `pe_img.cpp`, `pe_io.cpp`)

The file is read into a buffer of its size rounded up to a multiple of four, the fields of the header are set, and
the whole buffer is written over the file.  A field is the offset of its word in `E32ImageHeader`.
-/

namespace GnuPoc.Petran

open GnuPoc.Lib

/-! ### The header -/

def iUid1 : ℕ := 0
def iUid2 : ℕ := 4
def iUid3 : ℕ := 8
def iCheck : ℕ := 12
def iSignature : ℕ := 16
def iFlags : ℕ := 44
def iHeapSizeMin : ℕ := 56
def iHeapSizeMax : ℕ := 60
def iStackSize : ℕ := 64
def iPriority : ℕ := 120

/-- `sizeof(E32ImageHeader)`. -/
def sizeofHeader : ℕ := 124

def KImageDll : UInt32 := 0x01
def KImageNoCallEntryPoint : UInt32 := 0x02
def KImageFixedAddressExe : UInt32 := 0x04

def field (image : Bytes) (f : ℕ) : UInt32 := UInt32.ofNat (ofLE (readAt image f 4))

def setField (image : Bytes) (f : ℕ) (value : UInt32) : Bytes := writeAt image f (word32 value)

def SetUids (image : Bytes) (uid1 uid2 uid3 : UInt32) : Bytes :=
  setField (setField (setField (setField image iUid1 uid1) iUid2 uid2) iUid3 uid3) iCheck
    (TCheckedUid.Check uid1 uid2 uid3)

def SetCallEntryPoints (image : Bytes) (aBool : Bool) : Bytes :=
  setField image iFlags
    (if aBool then field image iFlags &&& ~~~KImageNoCallEntryPoint else field image iFlags ||| KImageNoCallEntryPoint)

def SetFixedAddress (image : Bytes) (aBool : Bool) : Bytes :=
  setField image iFlags
    (if aBool then field image iFlags ||| KImageFixedAddressExe else field image iFlags &&& ~~~KImageFixedAddressExe)

def SetPriority (image : Bytes) (aPri : UInt32) : Bytes := setField image iPriority aPri

/-! ### `doalter` -/

/-- The options that are set, with their values. -/
structure AlterOptions where
  stack : Option UInt32
  heap : Option (UInt32 × UInt32)
  uid1 : Option UInt32
  uid2 : Option UInt32
  uid3 : Option UInt32
  callEntryPoints : Option Bool
  priority : Option UInt32
  fixedAddress : Option Bool

/-- `ALIGN4`. -/
def ALIGN4 (a : ℕ) : ℕ := (a + 3) / 4 * 4

/-- `Adjust`, and what is read into the buffer.  The size is a `TInt`: without a sign, and not at the end of its
range. -/
def load (file : Bytes) : Outcome Bytes :=
  let aSize := tint file.length
  if aSize < 0 ∨ 2 ^ 31 ≤ aSize + 3 then .error .undefined
  else
    let iSize := ALIGN4 aSize.toNat
    .ok (file.take iSize ++ List.replicate (iSize - file.length) 0)

def isDll (image : Bytes) : Bool := field image iFlags &&& KImageDll ≠ 0

def AlterOptions.setSizes (o : AlterOptions) (image : Bytes) : Bytes :=
  let image := o.stack.elim image (setField image iStackSize)
  o.heap.elim image fun h => setField (setField image iHeapSizeMin h.1) iHeapSizeMax h.2

/-- A UID that is not given is the one in the file. -/
def AlterOptions.setUids (o : AlterOptions) (image : Bytes) : Bytes :=
  SetUids image (o.uid1.getD (field image iUid1)) (o.uid2.getD (field image iUid2)) (o.uid3.getD (field image iUid3))

def AlterOptions.setCall (o : AlterOptions) (image : Bytes) : Bytes :=
  o.callEntryPoints.elim image (SetCallEntryPoints image)

def AlterOptions.setPriority (o : AlterOptions) (image : Bytes) : Bytes :=
  o.priority.elim image fun p => if isDll image then image else SetPriority image p

def AlterOptions.setFixed (o : AlterOptions) (image : Bytes) : Bytes :=
  o.fixedAddress.elim image fun b => if isDll image then image else SetFixedAddress image b

/-- The edits, in the order of the code; the priority and the fixed address of a DLL stay. -/
def AlterOptions.edit (o : AlterOptions) (image : Bytes) : Bytes :=
  o.setFixed (o.setPriority (o.setCall (o.setUids (o.setSizes image))))

/-- The new file; a header that is not in the buffer is out of bounds. -/
def doalter (o : AlterOptions) (file : Bytes) : Outcome Bytes := do
  let image ← load file
  if image.length < sizeofHeader then .error .undefined else .ok (o.edit image)

/-! ### Fields and their frame -/

theorem length_setField {image : Bytes} {f : ℕ} (h : f + 4 ≤ image.length) (value : UInt32) :
    (setField image f value).length = image.length :=
  length_writeAt_of_le (by rw [length_word32]; exact h)

/-- No more than these fields differ. -/
structure Frame (fields : List ℕ) (image image' : Bytes) : Prop where
  length : image'.length = image.length
  others : ∀ i, (∀ f ∈ fields, i < f ∨ f + 4 ≤ i) → image'[i]? = image[i]?

namespace Frame

variable {fields fields' : List ℕ} {image image' image'' : Bytes}

theorem refl (fields : List ℕ) (image : Bytes) : Frame fields image image := ⟨rfl, fun _ _ => rfl⟩

theorem trans (h : Frame fields image image') (h' : Frame fields' image' image'') :
    Frame (fields ++ fields') image image'' where
  length := h'.length.trans h.length
  others i hi :=
    (h'.others i fun f hf => hi f (List.mem_append_right _ hf)).trans
      (h.others i fun f hf => hi f (List.mem_append_left _ hf))

theorem room (h : Frame fields image image') (hroom : sizeofHeader ≤ image.length) :
    sizeofHeader ≤ image'.length := by
  rw [h.length]
  exact hroom

theorem setField {f : ℕ} (h : f + 4 ≤ image.length) (value : UInt32) :
    Frame [f] image (setField image f value) where
  length := length_setField h value
  others i hi := by
    have hout := hi f (List.mem_singleton_self f)
    refine getElem?_writeAt_out (by omega) ?_
    rw [length_word32]
    exact hout

theorem elim {α : Type} {o : Option α} {step : α → Bytes} (h : ∀ a, Frame fields image (step a)) :
    Frame (if o.isSome then fields else []) image (o.elim image step) := by
  rcases o with _ | a
  · exact refl [] image
  · exact h a

theorem ite {p : Prop} [Decidable p] (h : Frame fields image image') :
    Frame fields image (if p then image else image') := by
  by_cases hp : p
  · rw [if_pos hp]
    exact refl fields image
  · rw [if_neg hp]
    exact h

theorem field (h : Frame fields image image') {f : ℕ} (hf : ∀ g ∈ fields, f + 4 ≤ g ∨ g + 4 ≤ f) :
    field image' f = field image f := by
  have hread : readAt image' f 4 = readAt image f 4 := by
    apply List.ext_getElem?
    intro k
    by_cases hk : k < 4
    · rw [readAt, readAt, List.getElem?_take_of_lt hk, List.getElem?_take_of_lt hk, List.getElem?_drop,
        List.getElem?_drop]
      apply h.others
      intro g hg
      have := hf g hg
      omega
    · rw [readAt, readAt, List.getElem?_take_eq_none (by omega), List.getElem?_take_eq_none (by omega)]
  rw [Petran.field, Petran.field, hread]

end Frame

theorem setField_field {image : Bytes} {f : ℕ} (h : f + 4 ≤ image.length) : setField image f (field image f) = image := by
  have hlength : (readAt image f 4).length = 4 := by
    rw [readAt, List.length_take, List.length_drop]
    omega
  have hlt : ofLE (readAt image f 4) < 2 ^ 32 := by
    have hbound := ofLE_lt (readAt image f 4)
    rw [hlength] at hbound
    exact hbound
  have hword : word32 (field image f) = readAt image f 4 := by
    have hbytes := leBytes_ofLE (readAt image f 4)
    rw [hlength] at hbytes
    rw [word32, field, UInt32.toNat_ofNat_of_lt' hlt, hbytes]
  have hsplit : image = image.take f ++ readAt image f 4 ++ image.drop (f + 4) := by
    rw [readAt, List.append_assoc, ← List.drop_drop, List.take_append_drop, List.take_append_drop]
  have htake : (image.take f).length = f := List.length_take_of_le (by omega)
  have hmiddle := @writeAt_middle (image.take f) (readAt image f 4) (readAt image f 4) (image.drop (f + 4)) rfl
  rw [htake, ← hsplit] at hmiddle
  rw [setField, hword, hmiddle]

theorem Frame.getD {image : Bytes} {f : ℕ} (h : f + 4 ≤ image.length) (o : Option UInt32) {value : UInt32}
    (hvalue : value = Petran.field image f) :
    Frame (if o.isSome then [f] else []) image (Petran.setField image f (o.getD value)) := by
  rcases o with _ | v
  · rw [Option.getD_none, hvalue, setField_field h]
    exact Frame.refl [] image
  · exact Frame.setField h v

/-! ### The frame of the edits -/

/-- The fields that the options ask for. -/
def AlterOptions.fields (o : AlterOptions) : List ℕ :=
  (if o.stack.isSome then [iStackSize] else []) ++ (if o.heap.isSome then [iHeapSizeMin, iHeapSizeMax] else []) ++
    ((if o.uid1.isSome then [iUid1] else []) ++ (if o.uid2.isSome then [iUid2] else []) ++
      (if o.uid3.isSome then [iUid3] else []) ++ [iCheck]) ++
    (if o.callEntryPoints.isSome then [iFlags] else []) ++ (if o.priority.isSome then [iPriority] else []) ++
    (if o.fixedAddress.isSome then [iFlags] else [])

section
variable (o : AlterOptions) {image : Bytes} (h : sizeofHeader ≤ image.length)
include h

theorem room {f : ℕ} (hf : f ≤ iPriority) : f + 4 ≤ image.length := by
  unfold iPriority at hf
  unfold sizeofHeader at h
  omega

theorem setSizes_frame : Frame ((if o.stack.isSome then [iStackSize] else []) ++
    (if o.heap.isSome then [iHeapSizeMin, iHeapSizeMax] else [])) image (o.setSizes image) := by
  have hstack : Frame (if o.stack.isSome then [iStackSize] else []) image
      (o.stack.elim image (setField image iStackSize)) :=
    Frame.elim fun v => Frame.setField (room h (by decide)) v
  refine hstack.trans (Frame.elim fun v => ?_)
  have hmin := Frame.setField (room (hstack.room h) (f := iHeapSizeMin) (by decide)) v.1
  exact hmin.trans (Frame.setField (room (hmin.room (hstack.room h)) (by decide)) v.2)

theorem setUids_frame : Frame ((if o.uid1.isSome then [iUid1] else []) ++
    (if o.uid2.isSome then [iUid2] else []) ++ (if o.uid3.isSome then [iUid3] else []) ++ [iCheck]) image
    (o.setUids image) := by
  have h1 := Frame.getD (room h (f := iUid1) (by decide)) o.uid1 rfl
  have hfield2 := h1.field (f := iUid2) (by cases o.uid1 <;> simp [iUid1, iUid2])
  have h2 := h1.trans (Frame.getD (room (h1.room h) (by decide)) o.uid2 hfield2.symm)
  have hfield3 := h2.field (f := iUid3) (by cases o.uid1 <;> cases o.uid2 <;> simp [iUid1, iUid2, iUid3])
  have h3 := h2.trans (Frame.getD (room (h2.room h) (by decide)) o.uid3 hfield3.symm)
  have hcheck := Frame.setField (room (h3.room h) (f := iCheck) (by decide))
  unfold AlterOptions.setUids SetUids
  exact h3.trans (hcheck _)

theorem setCall_frame : Frame (if o.callEntryPoints.isSome then [iFlags] else []) image (o.setCall image) :=
  Frame.elim fun _ => Frame.setField (room h (by decide)) _

theorem setPriority_frame : Frame (if o.priority.isSome then [iPriority] else []) image (o.setPriority image) :=
  Frame.elim fun _ => Frame.ite (Frame.setField (room h le_rfl) _)

theorem setFixed_frame : Frame (if o.fixedAddress.isSome then [iFlags] else []) image (o.setFixed image) :=
  Frame.elim fun _ => Frame.ite (Frame.setField (room h (by decide)) _)

/-- **The edits** change nothing but the fields that are asked for. -/
theorem edit_frame : Frame o.fields image (o.edit image) := by
  have h1 := setSizes_frame o h
  have h2 := h1.trans (setUids_frame o (h1.room h))
  have h3 := h2.trans (setCall_frame o (h2.room h))
  have h4 := h3.trans (setPriority_frame o (h3.room h))
  exact h4.trans (setFixed_frame o (h4.room h))

end

/-! ### The flags -/

/-- The bits of the flags that the options ask for. -/
def AlterOptions.flagBits (o : AlterOptions) : UInt32 :=
  (if o.callEntryPoints.isSome then KImageNoCallEntryPoint else 0) |||
    (if o.fixedAddress.isSome then KImageFixedAddressExe else 0)

theorem field_setField {image : Bytes} {f : ℕ} (value : UInt32) : field (setField image f value) f = value := by
  have hread : readAt (setField image f value) f 4 = word32 value := by
    apply List.ext_getElem?
    intro k
    by_cases hk : k < 4
    · have hin := @getElem?_writeAt_in image f (f + k) (word32 value) (by omega) (by rw [length_word32]; omega)
      rw [Nat.add_sub_cancel_left] at hin
      rw [readAt, List.getElem?_take_of_lt hk, List.getElem?_drop, setField, hin]
    · rw [readAt, List.getElem?_take_eq_none (by omega), List.getElem?_eq_none (by rw [length_word32]; omega)]
  rw [field, hread, word32, ofLE_leBytes_of_lt value.toNat_lt, UInt32.ofNat_toNat]

theorem or_and_distrib (x a c : UInt32) : (x ||| a) &&& c = (x &&& c) ||| (a &&& c) := by
  apply UInt32.toBitVec_inj.mp
  ext i
  simp [Bool.and_or_distrib_right]

theorem or_and_not {a bits : UInt32} (h : a &&& ~~~bits = 0) (x : UInt32) :
    (x ||| a) &&& ~~~bits = x &&& ~~~bits := by
  rw [or_and_distrib, h, UInt32.or_zero]

theorem and_not_and_not {a bits : UInt32} (h : a &&& ~~~bits = 0) (x : UInt32) :
    (x &&& ~~~a) &&& ~~~bits = x &&& ~~~bits := by
  have hbits : ~~~a &&& ~~~bits = ~~~bits := by
    have hall : (a ||| ~~~a) &&& ~~~bits = ~~~bits := by
      rw [UInt32.or_not_self, UInt32.neg_one_and]
    rwa [or_and_distrib, h, UInt32.zero_or] at hall
  rw [UInt32.and_assoc, hbits]

/-- The flags but for some bits. -/
def KeepsFlags (bits : UInt32) (image image' : Bytes) : Prop :=
  field image' iFlags &&& ~~~bits = field image iFlags &&& ~~~bits

theorem setCall_flags (o : AlterOptions) (image : Bytes) : KeepsFlags o.flagBits image (o.setCall image) := by
  unfold KeepsFlags AlterOptions.setCall
  rcases hcall : o.callEntryPoints with _ | b
  · rfl
  have hbit : KImageNoCallEntryPoint &&& ~~~o.flagBits = 0 := by
    unfold AlterOptions.flagBits
    rw [hcall]
    cases o.fixedAddress <;> simp only [Option.isSome_some, Option.isSome_none] <;> decide
  cases b
  · exact (congrArg (· &&& _) (field_setField _)).trans (or_and_not hbit _)
  · exact (congrArg (· &&& _) (field_setField _)).trans (and_not_and_not hbit _)

theorem setFixed_flags (o : AlterOptions) (image : Bytes) : KeepsFlags o.flagBits image (o.setFixed image) := by
  unfold KeepsFlags AlterOptions.setFixed
  rcases hfixed : o.fixedAddress with _ | b
  · rfl
  have hbit : KImageFixedAddressExe &&& ~~~o.flagBits = 0 := by
    unfold AlterOptions.flagBits
    rw [hfixed]
    cases o.callEntryPoints <;> simp only [Option.isSome_some, Option.isSome_none] <;> decide
  by_cases hdll : isDll image = true
  · simp only [Option.elim_some, if_pos hdll]
  · simp only [Option.elim_some, if_neg hdll]
    cases b
    · exact (congrArg (· &&& _) (field_setField _)).trans (and_not_and_not hbit _)
    · exact (congrArg (· &&& _) (field_setField _)).trans (or_and_not hbit _)

/-- **The flags** that are not asked for stay. -/
theorem edit_flags (o : AlterOptions) {image : Bytes} (h : sizeofHeader ≤ image.length) :
    KeepsFlags o.flagBits image (o.edit image) := by
  have h1 := setSizes_frame o h
  have h2 := h1.trans (setUids_frame o (h1.room h))
  have h3 := h2.trans (setCall_frame o (h2.room h))
  have hsame := h2.field (f := iFlags) (by
    cases o.stack <;> cases o.heap <;> cases o.uid1 <;> cases o.uid2 <;> cases o.uid3 <;>
      simp [iStackSize, iHeapSizeMin, iHeapSizeMax, iUid1, iUid2, iUid3, iCheck, iFlags])
  have hpriority := (setPriority_frame o (h3.room h)).field (f := iFlags) (by
    cases o.priority <;> simp [iPriority, iFlags])
  have hcall := setCall_flags o (o.setUids (o.setSizes image))
  have hfixed := setFixed_flags o (o.setPriority (o.setCall (o.setUids (o.setSizes image))))
  unfold KeepsFlags at hcall hfixed ⊢
  rw [AlterOptions.edit, hfixed, hpriority, hcall, hsame]

/-! ### The file -/

/-- A file that starts with a header of the right signature. -/
def ValidImage (file : Bytes) : Prop :=
  sizeofHeader ≤ file.length ∧ readAt file iSignature 4 = "EPOC".toList.map fun c => UInt8.ofNat c.toNat

instance (file : Bytes) : Decidable (ValidImage file) := inferInstanceAs (Decidable (_ ∧ _))

/-- What altering may do to a file. -/
structure Altered (o : AlterOptions) (file out : Bytes) : Prop where
  frame : Frame o.fields file out
  flags : KeepsFlags o.flagBits file out

theorem load_of_dvd {file : Bytes} (h4 : 4 ∣ file.length) (h : file.length < 2 ^ 31) : load file = .ok file := by
  have htint : tint file.length = file.length := by
    have hmod : file.length % 2 ^ 32 = file.length := Nat.mod_eq_of_lt (by omega)
    rw [tint, hmod, if_pos h]
    omega
  have hsize : ALIGN4 file.length = file.length := by
    unfold ALIGN4
    omega
  have hsmall : ¬((file.length : ℤ) < 0 ∨ 2 ^ 31 ≤ (file.length : ℤ) + 3) := by omega
  simp only [load, htint, if_neg hsmall, Int.toNat_natCast, hsize, List.take_length, Nat.sub_self,
    List.replicate_zero, List.append_nil]

theorem load_length {file image : Bytes} (h : load file = .ok image) (hlength : image.length = file.length) :
    4 ∣ file.length ∧ file.length < 2 ^ 31 := by
  unfold load at h
  by_cases hbad : tint file.length < 0 ∨ 2 ^ 31 ≤ tint file.length + 3
  · rw [if_pos hbad] at h
    exact absurd h (by simp)
  · rw [if_neg hbad] at h
    have himage := Except.ok.inj h
    have hsize : image.length = ALIGN4 (tint file.length).toNat := by
      rw [← himage, List.length_append, List.length_take, List.length_replicate]
      omega
    unfold ALIGN4 at hsize
    have htint : tint file.length = file.length % 2 ^ 32 ∨ tint file.length = file.length % 2 ^ 32 - 2 ^ 32 := by
      unfold tint
      by_cases hlow : file.length % 2 ^ 32 < 2 ^ 31
      · exact Or.inl (if_pos hlow)
      · exact Or.inr (if_neg hlow)
    constructor
    · omega
    · omega

/-- **Altering.**  Nothing of an image is changed but the fields of the options, and the flags but in their bits, exactly
if the file is a whole number of words and shorter than 2 GiB. -/
theorem doalter_alters (o : AlterOptions) (file : Bytes) (hvalid : ValidImage file) :
    (∃ out, doalter o file = .ok out ∧ Altered o file out) ↔ 4 ∣ file.length ∧ file.length < 2 ^ 31 := by
  constructor
  · rintro ⟨out, hout, halt⟩
    obtain ⟨image, hload, hrest⟩ := bind_eq_ok.mp hout
    by_cases hsmall : image.length < sizeofHeader
    · rw [if_pos hsmall] at hrest
      exact absurd hrest (by simp)
    · rw [if_neg hsmall] at hrest
      have hedit := Except.ok.inj hrest
      have hlength := (edit_frame o (not_lt.mp hsmall)).length
      rw [hedit, halt.frame.length] at hlength
      exact load_length hload hlength.symm
  · rintro ⟨h4, hlt⟩
    refine ⟨o.edit file, ?_, edit_frame o hvalid.1, edit_flags o hvalid.1⟩
    rw [doalter, load_of_dvd h4 hlt, outcome_ok_bind, if_neg (not_lt.mpr hvalid.1)]

/-- A header alone. -/
def headerFile : Bytes :=
  List.replicate 16 0 ++ ("EPOC".toList.map fun c => UInt8.ofNat c.toNat) ++ List.replicate 104 0

def setsPriority : AlterOptions := ⟨none, none, none, none, some 5, some true, some 350, none⟩

theorem doalter_alters_header :
    ∃ out, doalter setsPriority headerFile = .ok out ∧ Altered setsPriority headerFile out :=
  (doalter_alters setsPriority headerFile (by decide +kernel)).mpr (by decide +kernel)

/-- A byte more, and three bytes are added to the file. -/
theorem doalter_grows : ValidImage (headerFile ++ [1]) ∧
    (doalter setsPriority (headerFile ++ [1])).map List.length = .ok 128 ∧
    ¬∃ out, doalter setsPriority (headerFile ++ [1]) = .ok out ∧ out.length = (headerFile ++ [1]).length := by
  have hrun : (doalter setsPriority (headerFile ++ [1])).map List.length = .ok 128 := by decide +kernel
  refine ⟨by decide +kernel, hrun, ?_⟩
  rintro ⟨out, hout, hlength⟩
  rw [hout] at hrun
  have h128 : out.length = 128 := Except.ok.inj hrun
  rw [h128] at hlength
  exact absurd hlength (by decide +kernel)

end GnuPoc.Petran
