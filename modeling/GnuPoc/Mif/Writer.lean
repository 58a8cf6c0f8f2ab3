import GnuPoc.Lib.ByteFile
import GnuPoc.Mif.CommandLine

/-!
# GnuPoc.Mif.Writer — the MIF file, the `bmconv` command line and the header of `mifconv` (`mifconv.cpp`)

The three outputs are written by three loops over the images, each with a counter of its own.  The arrays that names
are put together in are taken as large enough; without a dot in it, the name of the `.mbm` file is a byte and that of a
mask four bytes longer than its array.
-/

namespace GnuPoc.Mif

open GnuPoc.Lib

def writeUint32 (value : UInt32) : Bytes := leBytes 4 value.toNat

@[simp] theorem length_writeUint32 (value : UInt32) : (writeUint32 value).length = 4 := length_leBytes ..

theorem ofLE_writeUint32 (value : UInt32) : ofLE (writeUint32 value) = value.toNat :=
  ofLE_leBytes_of_lt value.toNat_lt

/-- `images[i].colorTypeHeader == 0 || images[i].maskType != 0`. -/
def ImageFile.hasMask (image : ImageFile) : Bool := image.colorTypeHeader = 0 ∨ image.maskType ≠ 0

/-! ### The MIF file -/

/-- An entry of the table: offset and length. -/
abbrev Slot := UInt32 × UInt32

def Slot.bytes (slot : Slot) : Bytes := writeUint32 slot.1 ++ writeUint32 slot.2

/-- The loop that writes the table, with `offset` and `bmpOffset`. -/
def tableSlots : UInt32 → UInt32 → List ImageFile → List Slot
  | _, _, [] => []
  | offset, bmpOffset, image :: images =>
    if image.bitmap then
      let maskOffset := if image.hasMask then bmpOffset - 1 else bmpOffset
      (bmpOffset, 0) :: (maskOffset, 0) :: tableSlots offset (maskOffset - 1) images
    else
      (offset, image.size + 0x20) :: (offset, image.size + 0x20) ::
        tableSlots (offset + (image.size + 0x20)) bmpOffset images

/-- `while (written < size)`: chunks of at most 10240 bytes; `left` is `size - written`. -/
def copyLoop : ℕ → ℕ → Bytes → Outcome Bytes
  | 0, _, _ => .error .outOfFuel
  | n + 1, left, file =>
    if left = 0 then .ok []
    else
      let chunk := file.take (min left 10240)
      if chunk = [] then .error (.exits 1)
      else do
        let rest ← copyLoop n (left - chunk.length) (file.drop chunk.length)
        .ok (chunk ++ rest)

/-- The words in front of an icon. -/
def ImageFile.blockHeader (image : ImageFile) : Bytes :=
  [0x34232343, 1, 0x20, image.size, 1, image.colorType, image.animType, image.maskType].flatMap writeUint32

/-- The block of an image; a bitmap has none. -/
def writeBlock (env : Env) (image : ImageFile) : Outcome Bytes :=
  if image.bitmap then .ok []
  else
    match env.readFile image.name with
    | none => .error (.exits 1)
    | some file => do
      let icon ← copyLoop (image.size.toNat + 1) image.size.toNat file
      .ok (image.blockHeader ++ icon)

def writeBlocks (env : Env) : List ImageFile → Outcome Bytes
  | [] => .ok []
  | image :: images => do
    let block ← writeBlock env image
    let blocks ← writeBlocks env images
    .ok (block ++ blocks)

/-- The words in front of the table. -/
def mifHeader (images : List ImageFile) : Bytes :=
  [0x34232342, 2, 0x10, UInt32.ofNat (2 * images.length)].flatMap writeUint32

def writeMif (env : Env) (images : List ImageFile) : Outcome Bytes := do
  let table := tableSlots (UInt32.ofNat (0x10 + 0x10 * images.length)) 0 images
  let blocks ← writeBlocks env images
  .ok (mifHeader images ++ table.flatMap Slot.bytes ++ blocks)

/-! ### The command line for `bmconv` -/

/-- `strrchr(s, c)`, cut off there. -/
def cutAtLast (c : UInt8) (s : Bytes) : Bytes :=
  if c ∈ s then ((s.reverse.dropWhile (· ≠ c)).tail).reverse else s

/-- `catColorType`. -/
def catColorType (colorType : UInt32) : Bytes :=
  if colorType = 0 then []
  else
    match colors.find? fun type => type.2 = colorType with
    | none => []
    | some type => chars "/" ++ type.1

def bitmapArgument (image : ImageFile) : Bytes := catColorType image.colorTypeHeader ++ image.name

/-- The mask of an image: `/8` or `/1` and the name. -/
def maskArgument (env : Env) (image : ImageFile) : Bytes :=
  let maskType := if image.maskType = 0 ∨ image.maskType = 4 then 8 else image.maskType
  let softname := cutAtLast 46 image.name ++ chars "_mask_soft.bmp"
  let argument (maskType : UInt32) (maskname : Bytes) : Bytes :=
    chars "/" ++ printInt maskType.toInt32 ++ maskname
  if maskType = 1 then
    if (env.readFile softname).isSome then argument 8 softname
    -- without a dot in the name there is no place to cut
    else if 46 ∈ image.name then argument 1 (cutAtLast 46 image.name ++ chars "_mask.bmp")
    else argument 1 (softname ++ chars "_mask.bmp")
  else argument maskType softname

/-- What the loop adds to the command line for one image. -/
def imageArguments (env : Env) (image : ImageFile) : List Bytes :=
  if image.bitmap then
    bitmapArgument image :: if image.hasMask then [maskArgument env image] else []
  else []

def bmconvArguments (env : Env) (images : List ImageFile) : List Bytes :=
  images.flatMap (imageArguments env)

def mbmname (outname : Bytes) : Bytes := cutAtLast 46 outname ++ chars ".mbm"

def cmdline (env : Env) (outname : Bytes) (images : List ImageFile) : Bytes :=
  chars "bmconv /q " ++ mbmname outname ++ (bmconvArguments env images).flatMap (32 :: ·)

/-! ### The header -/

/-- `strrchr(s, c)` and what follows it. -/
def afterLast (c : UInt8) (s : Bytes) : Bytes := (s.reverse.takeWhile (· ≠ c)).reverse

def toName (str : Bytes) : Bytes :=
  match (afterLast 47 str).takeWhile (· ≠ 46) with
  | [] => []
  | c :: cs => toupper c :: cs.map tolower

/-- The enumerators, with `val`. -/
def headerLoop (base : Bytes) : UInt32 → List ImageFile → List (Bytes × UInt32)
  | _, [] => []
  | val, image :: images =>
    let name := chars "EMbm" ++ base ++ toName image.name
    (name, val) :: ((if image.hasMask then [(name ++ chars "_mask", val + 1)] else []) ++
      headerLoop base (val + 1 + 1) images)

def enumeratorLine (e : Bytes × UInt32) : Bytes :=
  9 :: e.1 ++ chars " = " ++ printInt e.2.toInt32 ++ chars ",\r\n"

def writeHeader (headername : Bytes) (images : List ImageFile) : Bytes :=
  let base := toName headername
  chars " \r\n" ++ chars "/* This file has been generated, DO NOT MODIFY. */\r\n" ++
    (chars "enum TMif" ++ base ++ chars "\r\n") ++ chars "\t\x7b\r\n" ++
    (headerLoop base 16384 images).flatMap enumeratorLine ++
    (chars "\tEMbm" ++ base ++ chars "LastElement\r\n") ++ chars "\t\x7d;\r\n"

/-! ### The program -/

structure Outputs where
  mif : Bytes
  bmconv : Option Bytes
  header : Option Bytes
  deriving DecidableEq

/-- `main` behind the arguments, when nothing is to be extracted. -/
def writeOutputs (env : Env) (g : Globals) : Outcome Outputs :=
  match g.outname with
  | none => .error (.exits 1)
  | some outname => do
    let mif ← writeMif env g.images
    .ok ⟨mif, if g.images.any (·.bitmap) then some (cmdline env outname g.images) else none,
      g.headername.map fun headername => writeHeader headername g.images⟩

def mifconv (env : Env) (n : ℕ) (argv : List Bytes) : Outcome Outputs := do
  let g ← processArguments env n argv .start
  writeOutputs env g

/-! ### The three loops, image by image -/

/-- The bytes an image has behind the table. -/
def ImageFile.blockLength (image : ImageFile) : ℕ := if image.bitmap then 0 else image.size.toNat + 0x20

/-- The arguments an image has in the command line. -/
def ImageFile.argumentCount (image : ImageFile) : ℕ :=
  if image.bitmap then (if image.hasMask then 2 else 1) else 0

/-- Where the block of the `i`-th image starts. -/
def blockStart (images : List ImageFile) (i : ℕ) : ℕ :=
  0x10 + 0x10 * images.length + ((images.take i).map ImageFile.blockLength).sum

/-- The position of the `i`-th image among the arguments. -/
def bmconvPosition (images : List ImageFile) (i : ℕ) : ℕ :=
  ((images.take i).map ImageFile.argumentCount).sum

/-- A slot of a bitmap image counts down from zero. -/
def Slot.RefersTo (slot : Slot) (position : ℕ) : Prop := slot = (0 - UInt32.ofNat position, 0)

/-- The `k`-th slot of a MIF file. -/
def slotAt (mif : Bytes) (k : ℕ) : Slot :=
  (UInt32.ofNat (ofLE (readAt mif (16 + 8 * k) 4)), UInt32.ofNat (ofLE (readAt mif (16 + 8 * k + 4) 4)))

section
variable {env : Env} {images : List ImageFile} {image : ImageFile} {mif : Bytes}

theorem length_imageArguments (env : Env) (image : ImageFile) :
    (imageArguments env image).length = image.argumentCount := by
  unfold imageArguments ImageFile.argumentCount
  split_ifs
  · rfl
  · rfl
  · rfl

theorem length_bmconvArguments (env : Env) (images : List ImageFile) :
    (bmconvArguments env images).length = (images.map ImageFile.argumentCount).sum := by
  rw [bmconvArguments, List.length_flatMap]
  simp only [length_imageArguments]

theorem length_tableSlots (images : List ImageFile) : ∀ offset bmpOffset,
    (tableSlots offset bmpOffset images).length = 2 * images.length := by
  induction images with
  | nil => exact fun _ _ => rfl
  | cons image images ih =>
    intro offset bmpOffset
    rw [tableSlots]
    split
    · simp only [List.length_cons, ih]
      omega
    · simp only [List.length_cons, ih]
      omega

/-- The first images move `offset` by their blocks and `bmpOffset` by their arguments. -/
theorem tableSlots_append (front rest : List ImageFile) : ∀ offset bmpOffset,
    tableSlots offset bmpOffset (front ++ rest) = tableSlots offset bmpOffset front ++
      tableSlots (offset + UInt32.ofNat (front.map ImageFile.blockLength).sum)
        (bmpOffset - UInt32.ofNat (front.map ImageFile.argumentCount).sum) rest := by
  induction front with
  | nil =>
    intro offset bmpOffset
    simp [tableSlots]
  | cons image front ih =>
    intro offset bmpOffset
    rw [List.cons_append, tableSlots, tableSlots]
    by_cases hb : image.bitmap
    · rw [if_pos hb, if_pos hb]
      have hcount : bmpOffset - UInt32.ofNat ((image :: front).map ImageFile.argumentCount).sum =
          (if image.hasMask then bmpOffset - 1 else bmpOffset) - 1 -
            UInt32.ofNat (front.map ImageFile.argumentCount).sum := by
        rw [List.map_cons, List.sum_cons, UInt32.ofNat_add, ImageFile.argumentCount, if_pos hb]
        split
        · show bmpOffset - (2 + _) = _
          grind
        · show bmpOffset - (1 + _) = _
          grind
      have hlength : ((image :: front).map ImageFile.blockLength).sum =
          (front.map ImageFile.blockLength).sum := by
        rw [List.map_cons, List.sum_cons, ImageFile.blockLength, if_pos hb, Nat.zero_add]
      dsimp only
      rw [hcount, hlength, ih]
      rfl
    · rw [if_neg hb, if_neg hb]
      have hcount : ((image :: front).map ImageFile.argumentCount).sum =
          (front.map ImageFile.argumentCount).sum := by
        rw [List.map_cons, List.sum_cons, ImageFile.argumentCount, if_neg hb, Nat.zero_add]
      have hlength : offset + UInt32.ofNat ((image :: front).map ImageFile.blockLength).sum =
          offset + (image.size + 0x20) + UInt32.ofNat (front.map ImageFile.blockLength).sum := by
        rw [List.map_cons, List.sum_cons, UInt32.ofNat_add, ImageFile.blockLength, if_neg hb,
          UInt32.ofNat_add, UInt32.ofNat_toNat]
        show offset + (image.size + 0x20 + _) = _
        grind
      rw [hcount, hlength, ih]
      rfl

theorem tableSlots_split {i : ℕ} (hi : images[i]? = some image) (offset bmpOffset : UInt32) :
    ∃ rest, tableSlots offset bmpOffset images = tableSlots offset bmpOffset (images.take i) ++
      (tableSlots (offset + UInt32.ofNat ((images.take i).map ImageFile.blockLength).sum)
        (bmpOffset - UInt32.ofNat (bmconvPosition images i)) [image] ++ rest) := by
  obtain ⟨hlt, rfl⟩ := List.getElem?_eq_some_iff.mp hi
  have hsplit : images = images.take i ++ (images[i] :: images.drop (i + 1)) := by
    rw [← List.drop_eq_getElem_cons, List.take_append_drop]
  have hfront := tableSlots_append (images.take i) (images[i] :: images.drop (i + 1)) offset bmpOffset
  have hone := tableSlots_append [images[i]] (images.drop (i + 1))
    (offset + UInt32.ofNat ((images.take i).map ImageFile.blockLength).sum)
    (bmpOffset - UInt32.ofNat (bmconvPosition images i))
  rw [← hsplit] at hfront
  exact ⟨_, hfront.trans (congrArg _ hone)⟩

/-! ### Reading the table -/

theorem length_slotBytes (slot : Slot) : slot.bytes.length = 8 := by
  rw [Slot.bytes, List.length_append, length_writeUint32, length_writeUint32]

theorem length_mifHeader (images : List ImageFile) : (mifHeader images).length = 16 := rfl

theorem length_flatMap_slots (slots : List Slot) : (slots.flatMap Slot.bytes).length = 8 * slots.length := by
  induction slots with
  | nil => rfl
  | cons slot slots ih =>
    rw [List.flatMap_cons, List.length_append, length_slotBytes, ih, List.length_cons]
    omega

theorem slotAt_append {header : Bytes} (hheader : header.length = 16) (front : List Slot) (slot : Slot)
    (rest : List Slot) (blocks : Bytes) :
    slotAt (header ++ (front ++ slot :: rest).flatMap Slot.bytes ++ blocks) front.length = slot := by
  have hdrop : (header ++ (front ++ slot :: rest).flatMap Slot.bytes ++ blocks).drop (16 + 8 * front.length) =
      writeUint32 slot.1 ++ (writeUint32 slot.2 ++ (rest.flatMap Slot.bytes ++ blocks)) := by
    have hlen : (header ++ front.flatMap Slot.bytes).length = 16 + 8 * front.length := by
      rw [List.length_append, hheader, length_flatMap_slots]
    rw [← hlen, List.flatMap_append, List.flatMap_cons, Slot.bytes]
    simp only [List.append_assoc]
    rw [← List.append_assoc, List.drop_left]
  have hdrop4 : (header ++ (front ++ slot :: rest).flatMap Slot.bytes ++ blocks).drop
      (16 + 8 * front.length + 4) = writeUint32 slot.2 ++ (rest.flatMap Slot.bytes ++ blocks) := by
    rw [← List.drop_drop, hdrop]
    exact List.drop_left' (length_writeUint32 _)
  rw [slotAt, readAt, readAt, hdrop, hdrop4, List.take_left' (length_writeUint32 _),
    List.take_left' (length_writeUint32 _), ofLE_writeUint32, ofLE_writeUint32, UInt32.ofNat_toNat,
    UInt32.ofNat_toNat]

/-! ### The blocks -/

/-- The loop copies the first `left` bytes. -/
theorem copyLoop_eq : ∀ (n left : ℕ) (file icon : Bytes), copyLoop n left file = .ok icon →
    icon = file.take left ∧ icon.length = left
  | 0, _, _, _, h => by cases h
  | n + 1, left, file, icon, h => by
    rw [copyLoop] at h
    split at h
    · next hleft =>
      cases h
      rw [hleft]
      exact ⟨rfl, rfl⟩
    · dsimp only at h
      split at h
      · cases h
      · obtain ⟨rest, hrest, h⟩ := bind_eq_ok.mp h
        cases h
        set chunk := file.take (min left 10240) with hchunk
        obtain ⟨heq, hlen⟩ := copyLoop_eq n _ _ _ hrest
        have hle : chunk.length ≤ left := by
          rw [hchunk, List.length_take]
          omega
        have htake : chunk = file.take chunk.length := by
          rw [hchunk, List.length_take, ← List.take_eq_take_min]
        refine ⟨?_, ?_⟩
        · rw [heq]
          nth_rewrite 1 [htake]
          rw [← List.take_add, Nat.add_sub_cancel' hle]
        · rw [List.length_append, hlen]
          omega

theorem copyLoop_ok : ∀ (n left : ℕ) (file : Bytes), left < n → left ≤ file.length →
    copyLoop n left file = .ok (file.take left)
  | 0, _, _, hn, _ => by omega
  | n + 1, left, file, hn, hfile => by
    by_cases hleft : left = 0
    · rw [copyLoop, if_pos hleft, hleft]
      rfl
    · have hchunk : (file.take (min left 10240)).length = min left 10240 := by
        rw [List.length_take]
        omega
      have hne : ¬ file.take (min left 10240) = [] := by
        intro h
        rw [h, List.length_nil] at hchunk
        omega
      have hrest := copyLoop_ok n (left - min left 10240) (file.drop (min left 10240)) (by omega)
        (by rw [List.length_drop]; omega)
      have hadd : min left 10240 + (left - min left 10240) = left := by omega
      rw [copyLoop, if_neg hleft]
      dsimp only
      rw [if_neg hne, hchunk, hrest, outcome_ok_bind, ← List.take_add, hadd]

theorem length_blockHeader (image : ImageFile) : image.blockHeader.length = 0x20 := rfl

theorem length_writeBlock {block : Bytes} (h : writeBlock env image = .ok block) :
    block.length = image.blockLength := by
  unfold writeBlock at h
  unfold ImageFile.blockLength
  split at h
  · next hb =>
    cases h
    rw [if_pos hb]
    rfl
  · next hb =>
    split at h
    · cases h
    · obtain ⟨icon, hicon, h⟩ := bind_eq_ok.mp h
      cases h
      rw [if_neg hb, List.length_append, length_blockHeader, (copyLoop_eq _ _ _ _ hicon).2, Nat.add_comm]

theorem writeBlocks_split : ∀ {images : List ImageFile} {blocks : Bytes} {i : ℕ},
    writeBlocks env images = .ok blocks → images[i]? = some image →
    ∃ front block rest, writeBlock env image = .ok block ∧ blocks = front ++ block ++ rest ∧
      front.length = ((images.take i).map ImageFile.blockLength).sum
  | [], _, _, _, hi => by cases hi
  | image' :: images, blocks, i, h, hi => by
    obtain ⟨first, hfirst, h⟩ := bind_eq_ok.mp h
    obtain ⟨others, hothers, h⟩ := bind_eq_ok.mp h
    cases h
    rcases i with _ | i
    · cases hi
      exact ⟨[], first, others, hfirst, rfl, rfl⟩
    · obtain ⟨front, block, rest, hblock, heq, hlen⟩ := writeBlocks_split hothers hi
      refine ⟨first ++ front, block, rest, hblock, ?_, ?_⟩
      · rw [heq]
        simp only [List.append_assoc]
      · rw [List.length_append, hlen, length_writeBlock hfirst, List.take_succ_cons, List.map_cons,
          List.sum_cons]

/-- A block stands where its two slots say. -/
theorem writeMif_split {i : ℕ} (h : writeMif env images = .ok mif) (hi : images[i]? = some image) :
    ∃ block, writeBlock env image = .ok block ∧
      readAt mif (blockStart images i) block.length = block ∧
      [slotAt mif (2 * i), slotAt mif (2 * i + 1)] =
        tableSlots (UInt32.ofNat (blockStart images i)) (0 - UInt32.ofNat (bmconvPosition images i)) [image] := by
  obtain ⟨blocks, hblocks, h⟩ := bind_eq_ok.mp h
  cases h
  obtain ⟨front, block, rest, hblock, heq, hfront⟩ := writeBlocks_split hblocks hi
  obtain ⟨restSlots, htable⟩ := tableSlots_split hi (UInt32.ofNat (0x10 + 0x10 * images.length)) 0
  refine ⟨block, hblock, ?_, ?_⟩
  · have hlen : (mifHeader images ++ (tableSlots (UInt32.ofNat (0x10 + 0x10 * images.length)) 0
        images).flatMap Slot.bytes ++ front).length = blockStart images i := by
      rw [List.length_append, List.length_append, length_mifHeader, length_flatMap_slots,
        length_tableSlots, hfront, blockStart]
      omega
    rw [heq, readAt, ← hlen]
    simp only [← List.append_assoc]
    rw [List.append_assoc _ block rest, List.drop_left, List.take_left]
  · rw [← UInt32.ofNat_add] at htable
    have hcount := length_tableSlots (images.take i) (UInt32.ofNat (0x10 + 0x10 * images.length)) 0
    have hlt := (List.getElem?_eq_some_iff.mp hi).1
    rw [List.length_take, Nat.min_eq_left hlt.le] at hcount
    obtain ⟨a, b, hab⟩ : ∃ a b, tableSlots (UInt32.ofNat (blockStart images i))
        (0 - UInt32.ofNat (bmconvPosition images i)) [image] = [a, b] := by
      unfold tableSlots
      split
      · exact ⟨_, _, rfl⟩
      · exact ⟨_, _, rfl⟩
    rw [blockStart] at hab
    rw [htable, blockStart, hab, ← hcount]
    have hfirst := slotAt_append (length_mifHeader images) (tableSlots (UInt32.ofNat
      (0x10 + 0x10 * images.length)) 0 (images.take i)) a (b :: restSlots) blocks
    have hsecond := slotAt_append (length_mifHeader images) (tableSlots (UInt32.ofNat
      (0x10 + 0x10 * images.length)) 0 (images.take i) ++ [a]) b restSlots blocks
    rw [List.length_append, List.length_singleton] at hsecond
    simp only [List.append_assoc, List.cons_append, List.nil_append] at hfirst hsecond ⊢
    rw [hfirst, hsecond]

theorem bmconvArguments_split {i : ℕ} (hi : images[i]? = some image) :
    ∃ front rest, bmconvArguments env images = front ++ imageArguments env image ++ rest ∧
      front.length = bmconvPosition images i := by
  obtain ⟨hlt, rfl⟩ := List.getElem?_eq_some_iff.mp hi
  have hsplit : images = images.take i ++ (images[i] :: images.drop (i + 1)) := by
    rw [← List.drop_eq_getElem_cons, List.take_append_drop]
  refine ⟨bmconvArguments env (images.take i), bmconvArguments env (images.drop (i + 1)), ?_, ?_⟩
  · conv_lhs => rw [hsplit]
    rw [bmconvArguments, List.flatMap_append, List.flatMap_cons, List.append_assoc]
    rfl
  · rw [length_bmconvArguments]
    rfl

/-- The enumerators of the image with the given id. -/
def enumerators (base : Bytes) (image : ImageFile) (id : UInt32) : List (Bytes × UInt32) :=
  (chars "EMbm" ++ base ++ toName image.name, id) ::
    if image.hasMask then [(chars "EMbm" ++ base ++ toName image.name ++ chars "_mask", id + 1)] else []

/-- `val` goes up by two with every image. -/
theorem headerLoop_eq (base : Bytes) (val : UInt32) (images : List ImageFile) : ∀ k : ℕ,
    headerLoop base (val + 2 * UInt32.ofNat k) images =
      (images.zipIdx k).flatMap fun p => enumerators base p.1 (val + 2 * UInt32.ofNat p.2) := by
  induction images with
  | nil => exact fun _ => rfl
  | cons image images ih =>
    intro k
    have hnext : val + 2 * UInt32.ofNat k + 1 + 1 = val + 2 * UInt32.ofNat (k + 1) := by
      rw [UInt32.ofNat_add]
      show _ = val + 2 * (UInt32.ofNat k + 1)
      grind
    rw [headerLoop, List.zipIdx_cons, List.flatMap_cons, hnext, ih]
    rfl

/-- What the table and the command line say about the `i`-th image. -/
structure SlotsAgree (env : Env) (images : List ImageFile) (mif : Bytes) (i : ℕ) (image : ImageFile) :
    Prop where
  /-- Both slots of an icon are its block, which stands behind the blocks of the icons before it. -/
  icon : image.bitmap = false → ∃ block, writeBlock env image = .ok block ∧
    readAt mif (blockStart images i) block.length = block ∧
    slotAt mif (2 * i) = (UInt32.ofNat (blockStart images i), image.size + 0x20) ∧
    slotAt mif (2 * i + 1) = (UInt32.ofNat (blockStart images i), image.size + 0x20)
  bitmap : image.bitmap = true → (slotAt mif (2 * i)).RefersTo (bmconvPosition images i) ∧
    (bmconvArguments env images)[bmconvPosition images i]? = some (bitmapArgument image)
  mask : image.bitmap = true → image.hasMask = true →
    (slotAt mif (2 * i + 1)).RefersTo (bmconvPosition images i + 1) ∧
    (bmconvArguments env images)[bmconvPosition images i + 1]? = some (maskArgument env image)
  /-- Without a mask the second slot is the bitmap again. -/
  noMask : image.bitmap = true → image.hasMask = false →
    (slotAt mif (2 * i + 1)).RefersTo (bmconvPosition images i)

/-- The slots of an image say what the other outputs count on. -/
theorem writeMif_slotsAgree {i : ℕ} (h : writeMif env images = .ok mif) (hi : images[i]? = some image) :
    SlotsAgree env images mif i image := by
  obtain ⟨block, hblock, hread, hslots⟩ := writeMif_split h hi
  obtain ⟨front, rest, hargs, hfront⟩ := @bmconvArguments_split env _ _ _ hi
  rw [tableSlots] at hslots
  refine ⟨fun hb => ?_, fun hb => ?_, fun hb hm => ?_, fun hb hm => ?_⟩
  · rw [if_neg (by rw [hb]; exact Bool.false_ne_true)] at hslots
    simp only [List.cons.injEq] at hslots
    exact ⟨block, hblock, hread, hslots.1, hslots.2.1⟩
  · rw [if_pos hb] at hslots
    simp only [List.cons.injEq] at hslots
    refine ⟨hslots.1, ?_⟩
    rw [hargs, ← hfront, imageArguments, if_pos hb, List.append_assoc, List.getElem?_append_right le_rfl,
      Nat.sub_self]
    rfl
  · rw [if_pos hb] at hslots
    simp only [List.cons.injEq, hm, if_true] at hslots
    refine ⟨?_, ?_⟩
    · rw [Slot.RefersTo, hslots.2.1, UInt32.ofNat_add]
      show (0 - _ - 1, _) = (0 - (_ + 1), _)
      congr 1
      grind
    · rw [hargs, ← hfront, imageArguments, if_pos hb, if_pos hm, List.append_assoc,
        List.getElem?_append_right (Nat.le_add_right _ 1), Nat.add_sub_cancel_left]
      rfl
  · rw [if_pos hb] at hslots
    simp only [List.cons.injEq, hm, Bool.false_eq_true, if_false] at hslots
    exact hslots.2.1

end

def sampleEnv : Env where
  readFile name :=
    if name = chars "a.svg" then some (chars "<svg/>")
    else if name = chars "b.bmp" ∨ name = chars "c.bmp" then some (chars "BM..")
    else none

def sampleArguments : List Bytes :=
  [chars "o.mif", chars "/ho.mbg", chars "a.svg", chars "/c8,8", chars "b.bmp", chars "/c8", chars "c.bmp"]

end GnuPoc.Mif
