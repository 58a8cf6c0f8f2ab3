import GnuPoc.Mif.Writer
import Mathlib.Algebra.Order.BigOperators.Group.List
import Mathlib.Data.List.Forall2

/-!
# GnuPoc.Mif.Extract — `doExtract` of `mifconv` (`mifconv.cpp`)

The extractor reads the table and dumps the icon at every other offset.  The dumped files are listed in
order; how their names are chosen is left out.
-/

namespace GnuPoc.Mif

open GnuPoc.Lib

/-- `readUint32`, with what it leaves. -/
def readUint32 (file : Bytes) : Outcome (UInt32 × Bytes) :=
  if file.length < 4 then .error (.exits 1)
  else .ok (UInt32.ofNat (ofLE (file.take 4)), file.drop 4)

def expectUint32 (value : UInt32) (file : Bytes) : Outcome Bytes := do
  let (v, file) ← readUint32 file
  if v ≠ value then .error (.exits 2) else .ok file

/-- The loop over the table: the offsets. -/
def readTable : ℕ → Bytes → Outcome (List UInt32)
  | 0, _ => .ok []
  | n + 1, file => do
    let (offset, file) ← readUint32 file
    let (size, file) ← readUint32 file
    let file ← expectUint32 offset file
    let file ← expectUint32 size file
    let offsets ← readTable n file
    .ok (offset :: offsets)

/-- The body of the second loop: the icon at an offset. -/
def extractIcon (mif : Bytes) (offset : UInt32) : Outcome Bytes := do
  let file ← expectUint32 0x34232343 (mif.drop offset.toNat)
  let file ← expectUint32 1 file
  let file ← expectUint32 0x20 file
  let (size, file) ← readUint32 file
  let file ← expectUint32 1 file
  let (_, file) ← readUint32 file
  let (_, file) ← readUint32 file
  let (_, file) ← readUint32 file
  if file.length < size.toNat then .error (.exits 3) else .ok (file.take size.toNat)

/-- The second loop. -/
def extractIcons (mif : Bytes) : List UInt32 → Outcome (List Bytes)
  | [] => .ok []
  | offset :: offsets => do
    let icon ← extractIcon mif offset
    let icons ← extractIcons mif offsets
    .ok (icon :: icons)

def doExtract (mif : Bytes) : Outcome (List Bytes) := do
  let file ← expectUint32 0x34232342 mif
  let file ← expectUint32 2 file
  let file ← expectUint32 0x10 file
  let (n, file) ← readUint32 file
  let offsets ← readTable (n.toNat / 2) file
  extractIcons mif offsets

/-! ### Reading what was written -/

theorem readUint32_append (v : UInt32) (rest : Bytes) : readUint32 (writeUint32 v ++ rest) = .ok (v, rest) := by
  have hlen : ¬ (writeUint32 v ++ rest).length < 4 := by
    rw [List.length_append, length_writeUint32]
    omega
  rw [readUint32, if_neg hlen, List.take_left' (length_writeUint32 v), List.drop_left' (length_writeUint32 v),
    ofLE_writeUint32, UInt32.ofNat_toNat]

theorem expectUint32_append (v : UInt32) (rest : Bytes) : expectUint32 v (writeUint32 v ++ rest) = .ok rest := by
  rw [expectUint32, readUint32_append, outcome_ok_bind]
  exact if_neg fun h => h rfl

theorem readTable_slots (slots : List Slot) (rest : Bytes) :
    readTable slots.length ((slots.flatMap fun slot => [slot, slot]).flatMap Slot.bytes ++ rest) =
      .ok (slots.map Prod.fst) := by
  induction slots with
  | nil => rfl
  | cons slot slots ih =>
    simp only [List.length_cons, readTable, List.flatMap_cons, List.flatMap_append, Slot.bytes,
      List.append_assoc, List.flatMap_nil, List.nil_append, readUint32_append, expectUint32_append,
      outcome_ok_bind, ih, List.map_cons]

theorem extractIcon_block {mif icon rest : Bytes} {offset : UInt32} {image : ImageFile}
    (hmif : mif.drop offset.toNat = image.blockHeader ++ icon ++ rest) (hsize : image.size.toNat = icon.length) :
    extractIcon mif offset = .ok icon := by
  have hlen : ¬ (icon ++ rest).length < image.size.toNat := by
    rw [List.length_append]
    omega
  rw [extractIcon, hmif]
  simp only [ImageFile.blockHeader, List.flatMap_cons, List.flatMap_nil, List.append_nil, List.append_assoc,
    expectUint32_append, readUint32_append, outcome_ok_bind]
  rw [if_neg hlen, hsize, List.take_left]

/-! ### A MIF file of icons -/

/-- The length of the MIF file of these icons. -/
def mifLength (contents : List Bytes) : ℕ := 0x10 + (contents.map fun content => content.length + 0x30).sum

/-- The slot of every icon, the first block being at `offset`. -/
def iconSlots : UInt32 → List ImageFile → List Slot
  | _, [] => []
  | offset, image :: images => (offset, image.size + 0x20) :: iconSlots (offset + (image.size + 0x20)) images

theorem tableSlots_icons {images : List ImageFile} (h : ∀ image ∈ images, image.bitmap = false) :
    ∀ offset bmpOffset,
      tableSlots offset bmpOffset images = (iconSlots offset images).flatMap fun slot => [slot, slot] := by
  induction images with
  | nil => exact fun _ _ => rfl
  | cons image images ih =>
    intro offset bmpOffset
    have hb : ¬ image.bitmap = true := by
      rw [h image List.mem_cons_self]
      exact Bool.false_ne_true
    rw [tableSlots, if_neg hb, ih fun image himage => h image (List.mem_cons_of_mem _ himage)]
    rfl

theorem length_iconSlots (images : List ImageFile) : ∀ offset, (iconSlots offset images).length = images.length := by
  induction images with
  | nil => exact fun _ => rfl
  | cons image images ih => exact fun offset => congrArg (· + 1) (ih _)

section
variable {env : Env} {image : ImageFile} {content : Bytes} {images : List ImageFile} {contents : List Bytes}

/-- An icon whose file is shorter than `2 ^ 32` bytes. -/
theorem writeBlock_icon (h : image.Checked env content) (hsvg : isBitmap content = false)
    (hlen : content.length < 2 ^ 32) :
    writeBlock env image = .ok (image.blockHeader ++ content) ∧ image.size.toNat = content.length := by
  obtain ⟨hread, hbitmap, hsize⟩ := h
  have htoNat : image.size.toNat = content.length := by
    rw [hsize, UInt32.toNat_ofNat', Nat.mod_eq_of_lt hlen]
  have hb : ¬ image.bitmap = true := by
    rw [hbitmap, hsvg]
    exact Bool.false_ne_true
  refine ⟨?_, htoNat⟩
  rw [writeBlock, if_neg hb, hread]
  dsimp only
  rw [htoNat, copyLoop_ok _ _ _ (Nat.lt_succ_self _) le_rfl, List.take_length]
  rfl

/-- The blocks of icons that end before `2 ^ 32` are written, and each is found at its offset. -/
theorem extractIcons_blocks (h : List.Forall₂ (ImageFile.Checked env) images contents)
    (hsvg : ∀ content ∈ contents, isBitmap content = false) :
    ∀ front : Bytes, front.length + (contents.map fun content => content.length + 0x20).sum ≤ 2 ^ 32 →
      ∃ blocks, writeBlocks env images = .ok blocks ∧
        blocks.length = (contents.map fun content => content.length + 0x20).sum ∧
        extractIcons (front ++ blocks) ((iconSlots (UInt32.ofNat front.length) images).map Prod.fst) =
          .ok contents := by
  induction h with
  | nil => exact fun front _ => ⟨[], rfl, rfl, rfl⟩
  | @cons image content images contents himage h ih =>
    intro front hfits
    rw [List.map_cons, List.sum_cons] at hfits
    obtain ⟨hblock, hsize⟩ := writeBlock_icon himage (hsvg content List.mem_cons_self) (by omega)
    have hlen : (image.blockHeader ++ content).length = content.length + 0x20 := by
      rw [List.length_append, length_blockHeader, Nat.add_comm]
    obtain ⟨blocks, hblocks, hblen, hicons⟩ := ih (fun c hc => hsvg c (List.mem_cons_of_mem _ hc))
      (front ++ (image.blockHeader ++ content)) (by rw [List.length_append, hlen]; omega)
    have hoffset : (UInt32.ofNat front.length).toNat = front.length := by
      rw [UInt32.toNat_ofNat', Nat.mod_eq_of_lt (by omega)]
    have hnext : UInt32.ofNat front.length + (image.size + 0x20) =
        UInt32.ofNat (front ++ (image.blockHeader ++ content)).length := by
      rw [List.length_append, hlen, UInt32.ofNat_add, UInt32.ofNat_add, ← hsize, UInt32.ofNat_toNat]
      rfl
    refine ⟨image.blockHeader ++ content ++ blocks, ?_, ?_, ?_⟩
    · rw [writeBlocks, hblock, outcome_ok_bind, hblocks]
      rfl
    · rw [List.length_append, hlen, hblen, List.map_cons, List.sum_cons]
    · have hdrop : (front ++ (image.blockHeader ++ content ++ blocks)).drop (UInt32.ofNat front.length).toNat =
          image.blockHeader ++ content ++ blocks := by
        rw [hoffset, List.drop_left]
      rw [iconSlots, List.map_cons, extractIcons, extractIcon_block hdrop hsize, outcome_ok_bind, hnext,
        ← List.append_assoc front, hicons]
      rfl

theorem sum_blockLength_icons (h : List.Forall₂ (ImageFile.Checked env) images contents)
    (hsvg : ∀ content ∈ contents, isBitmap content = false)
    (hlen : ∀ content ∈ contents, content.length < 2 ^ 32) :
    images.map ImageFile.blockLength = contents.map fun content => content.length + 0x20 := by
  induction h with
  | nil => rfl
  | @cons image content images contents himage h ih =>
    obtain ⟨hblock, -⟩ := writeBlock_icon himage (hsvg content List.mem_cons_self)
      (hlen content List.mem_cons_self)
    have := length_writeBlock hblock
    rw [List.length_append, length_blockHeader] at this
    rw [List.map_cons, List.map_cons, ih (fun c hc => hsvg c (List.mem_cons_of_mem _ hc))
      (fun c hc => hlen c (List.mem_cons_of_mem _ hc)), ← this, Nat.add_comm]

theorem length_le_sum {k : ℕ} (hc : content ∈ contents) :
    content.length + k ≤ (contents.map fun content => content.length + k).sum :=
  List.single_le_sum (by simp) _ (List.mem_map_of_mem hc)

theorem blockStart_succ {i : ℕ} (hi : images[i]? = some image) :
    blockStart images (i + 1) = blockStart images i + image.blockLength := by
  obtain ⟨hlt, rfl⟩ := List.getElem?_eq_some_iff.mp hi
  rw [blockStart, List.take_succ_eq_append_getElem hlt, List.map_append, List.sum_append, blockStart]
  simp only [List.map_cons, List.map_nil, List.sum_cons, List.sum_nil]
  omega

theorem blockStart_le (images : List ImageFile) (i : ℕ) :
    blockStart images i ≤ blockStart images images.length := by
  have h := List.sum_take_add_sum_drop (images.map ImageFile.blockLength) i
  rw [← List.map_take] at h
  rw [blockStart, blockStart, List.take_length]
  omega

theorem slotAt_icon {mif : Bytes} {i : ℕ} (hmif : writeMif env images = .ok mif)
    (hi : images[i]? = some image) (hb : image.bitmap = false)
    (hfits : blockStart images images.length ≤ 2 ^ 32) :
    (slotAt mif (2 * i)).1.toNat = blockStart images i ∧
      (slotAt mif (2 * i)).2.toNat = image.blockLength ∧ slotAt mif (2 * i + 1) = slotAt mif (2 * i) := by
  obtain ⟨-, -, -, hfirst, hsecond⟩ := (writeMif_slotsAgree hmif hi).icon hb
  have hle := blockStart_le images (i + 1)
  have hlength : image.blockLength = image.size.toNat + 0x20 := by
    rw [ImageFile.blockLength, if_neg (by rw [hb]; exact Bool.false_ne_true)]
  have hstart : 0x10 ≤ blockStart images i := by
    rw [blockStart]
    omega
  rw [blockStart_succ hi] at hle
  rw [hfirst, hsecond]
  refine ⟨?_, ?_, rfl⟩
  · rw [UInt32.toNat_ofNat', Nat.mod_eq_of_lt (by omega)]
  · have h32 : (0x20 : UInt32).toNat = 0x20 := rfl
    rw [UInt32.toNat_add, h32, Nat.mod_eq_of_lt (by omega), hlength]

theorem mifLength_eq (contents : List Bytes) : mifLength contents =
    0x10 + 0x10 * contents.length + (contents.map fun content => content.length + 0x20).sum := by
  unfold mifLength
  induction contents with
  | nil => rfl
  | cons content contents ih =>
    simp only [List.map_cons, List.sum_cons, List.length_cons] at ih ⊢
    omega

end

/-- **Extraction.**  From a MIF file of icons that fits 32-bit offsets every icon comes out as it was, in
order; each pair of slots designates the block of one icon, which ends where the next one begins or at the
end of the file. -/
theorem doExtract_writeMif {env : Env} {images : List ImageFile} {contents : List Bytes}
    (h : List.Forall₂ (ImageFile.Checked env) images contents)
    (hsvg : ∀ content ∈ contents, isBitmap content = false) (hfits : mifLength contents ≤ 2 ^ 32) :
    ∃ mif, writeMif env images = .ok mif ∧ doExtract mif = .ok contents ∧
      ∀ i image content, images[i]? = some image → contents[i]? = some content →
        slotAt mif (2 * i + 1) = slotAt mif (2 * i) ∧
        readAt mif (slotAt mif (2 * i)).1.toNat (slotAt mif (2 * i)).2.toNat = image.blockHeader ++ content ∧
        (slotAt mif (2 * i)).1.toNat + (slotAt mif (2 * i)).2.toNat =
          if i + 1 < images.length then (slotAt mif (2 * (i + 1))).1.toNat else mif.length := by
  have hn := h.length_eq
  have hlen : ∀ content ∈ contents, content.length < 2 ^ 32 := fun content hc => by
    have := length_le_sum (k := 0x30) hc
    unfold mifLength at hfits
    omega
  have hsum := sum_blockLength_icons h hsvg hlen
  rw [mifLength_eq, ← hn] at hfits
  have hicons : ∀ image ∈ images, image.bitmap = false := by
    intro image himage
    obtain ⟨i, hi⟩ := List.getElem?_of_mem himage
    obtain ⟨hlt, rfl⟩ := List.getElem?_eq_some_iff.mp hi
    have hchecked := h.get hlt (hn ▸ hlt)
    rw [List.get_eq_getElem] at hchecked
    rw [hchecked.2.1]
    exact hsvg _ (List.getElem_mem _)
  set table := tableSlots (UInt32.ofNat (0x10 + 0x10 * images.length)) 0 images with htable
  have hfront : (mifHeader images ++ table.flatMap Slot.bytes).length = 0x10 + 0x10 * images.length := by
    rw [List.length_append, length_mifHeader, length_flatMap_slots, htable, length_tableSlots]
    omega
  obtain ⟨blocks, hblocks, hblen, hext⟩ := extractIcons_blocks h hsvg
    (mifHeader images ++ table.flatMap Slot.bytes) (by rw [hfront]; exact hfits)
  have hmif : writeMif env images = .ok (mifHeader images ++ table.flatMap Slot.bytes ++ blocks) := by
    rw [writeMif, hblocks]
    rfl
  have hend : (mifHeader images ++ table.flatMap Slot.bytes ++ blocks).length =
      blockStart images images.length := by
    rw [List.length_append, hfront, hblen, blockStart, List.take_length, hsum]
  refine ⟨_, hmif, ?_, ?_⟩
  · have hcount : (UInt32.ofNat (2 * images.length)).toNat / 2 =
        (iconSlots (UInt32.ofNat (0x10 + 0x10 * images.length)) images).length := by
      rw [UInt32.toNat_ofNat', Nat.mod_eq_of_lt (by omega), length_iconSlots]
      omega
    rw [doExtract]
    simp only [mifHeader, List.flatMap_cons, List.flatMap_nil, List.append_nil, List.append_assoc,
      expectUint32_append, readUint32_append, outcome_ok_bind, hcount]
    rw [htable, tableSlots_icons hicons, readTable_slots, outcome_ok_bind]
    rw [hfront, htable, tableSlots_icons hicons] at hext
    simpa only [mifHeader, List.flatMap_cons, List.flatMap_nil, List.append_nil, List.append_assoc] using hext
  · intro i image content hi hci
    obtain ⟨hlt, himage⟩ := List.getElem?_eq_some_iff.mp hi
    obtain ⟨hltc, hcontent⟩ := List.getElem?_eq_some_iff.mp hci
    have hchecked := h.get hlt hltc
    rw [List.get_eq_getElem, List.get_eq_getElem, himage, hcontent] at hchecked
    have hmem : content ∈ contents := List.mem_of_getElem? hci
    obtain ⟨hblock, hsize⟩ := writeBlock_icon hchecked (hsvg content hmem) (hlen content hmem)
    obtain ⟨block, hblock', hread, -⟩ := writeMif_split hmif hi
    cases hblock'.symm.trans hblock
    have hblen' : (image.blockHeader ++ content).length = content.length + 0x20 := by
      rw [List.length_append, length_blockHeader, Nat.add_comm]
    have hlength : image.blockLength = content.length + 0x20 := by
      rw [← length_writeBlock hblock, hblen']
    have htotal : blockStart images images.length ≤ 2 ^ 32 := by
      rw [blockStart, List.take_length, hsum]
      exact hfits
    obtain ⟨hfirst, hsecond, heq⟩ := slotAt_icon hmif hi (hicons image (List.mem_of_getElem? hi)) htotal
    refine ⟨heq, ?_, ?_⟩
    · rw [hfirst, hsecond, hlength, ← hblen']
      exact hread
    · rw [hfirst, hsecond, ← blockStart_succ hi]
      split
      · next hnext =>
        have hi' : images[i + 1]? = some images[i + 1] := List.getElem?_eq_getElem hnext
        rw [(slotAt_icon hmif hi' (hicons _ (List.getElem_mem hnext)) htotal).1]
      · have hlast : i + 1 = images.length := by omega
        rw [hend, hlast]

/-! One empty icon and one of five bytes. -/

def sampleIcons : Env where
  readFile name := if name = chars "a.svg" then some [] else some (chars "<svg>")

theorem doExtract_writeMif_sample :
    ∃ mif, writeMif sampleIcons (([chars "a.svg", chars "b.svg"].zip [[], chars "<svg>"]).map fun p =>
        checkedImage .start p.1 p.2) = .ok mif ∧ doExtract mif = .ok [[], chars "<svg>"] := by
  obtain ⟨mif, hmif, hext, -⟩ := @doExtract_writeMif sampleIcons
    (([chars "a.svg", chars "b.svg"].zip [[], chars "<svg>"]).map fun p => checkedImage .start p.1 p.2)
    [[], chars "<svg>"]
    (.cons ⟨by decide, rfl, rfl⟩ (.cons ⟨by decide, rfl, rfl⟩ .nil)) (by decide) (by decide)
  exact ⟨mif, hmif, hext⟩

/-! A file of `2 ^ 32` bytes is stored with the size zero. -/

theorem doExtract_huge {env : Env} {content : Bytes} (h : env.readFile [] = some content) :
    ∃ mif, writeMif env [⟨[], false, 0, 0, 0, 0, 0⟩] = .ok mif ∧ doExtract mif = .ok [[]] := by
  refine ⟨_, by rw [writeMif, writeBlocks, writeBlock, h]; rfl, ?_⟩
  decide +kernel

/-- A length that 32 bits do not hold is lost. -/
theorem doExtract_writeMif_wraps : ∃ (env : Env) (images : List ImageFile) (contents : List Bytes),
    List.Forall₂ (ImageFile.Checked env) images contents ∧
      (∀ content ∈ contents, isBitmap content = false) ∧
      ∃ mif, writeMif env images = .ok mif ∧ doExtract mif ≠ .ok contents := by
  obtain ⟨content, hlen, hsvg⟩ : ∃ content : Bytes, content.length = 2 ^ 32 ∧ isBitmap content = false := by
    refine ⟨List.replicate (2 ^ 32) 0, List.length_replicate, ?_⟩
    rw [isBitmap, List.take_replicate]
    rfl
  obtain ⟨mif, hmif, hext⟩ := @doExtract_huge ⟨fun _ => some content⟩ content rfl
  refine ⟨⟨fun _ => some content⟩, _, [content], .cons ⟨rfl, hsvg.symm, by rw [hlen]; rfl⟩ .nil, ?_, mif,
    hmif, ?_⟩
  · intro c hc
    rw [List.mem_singleton.mp hc]
    exact hsvg
  · rw [hext]
    intro heq
    cases heq
    cases hlen

end GnuPoc.Mif
