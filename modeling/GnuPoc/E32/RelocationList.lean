import GnuPoc.E32.Image
import GnuPoc.Lib.Containers
import Mathlib.Algebra.Order.BigOperators.Group.List
import Mathlib.Data.UInt

/-!
# GnuPoc.E32.RelocationList — the relocation sections (`reloc.h`, `reloc.cpp`)

`addRelocation` files a site under its page, `write` puts the pages down in ascending order, each with
its sites sorted and padded to four bytes.  A slot of a page block is sixteen bits: the type and the
offset in the page.  A reader takes zero slots for padding, so a site that gets no type is lost when it
stands at the start of its page.
-/

namespace GnuPoc.E32

open GnuPoc.Lib

structure Relocation where
  offset : UInt16
  value : UInt32
  deriving DecidableEq

/-- `Relocation::operator<`. -/
def Relocation.lt (r s : Relocation) : Bool := r.offset < s.offset

/-- One `addRelocation` call. -/
structure RelocationCall where
  offset : UInt32
  value : UInt32
  deriving DecidableEq

/-- `prefix` of `addRelocation`. -/
def RelocationCall.page (c : RelocationCall) : UInt32 := c.offset &&& 0xfffff000

def RelocationCall.relocation (c : RelocationCall) : Relocation := ⟨(c.offset &&& 0xfff).toUInt16, c.value⟩

/-- `operator<` on the keys of the map. -/
instance linearOrderUInt32 : LinearOrder UInt32 where
  le_refl _ := UInt32.le_refl _
  le_trans _ _ _ := UInt32.le_trans
  lt_iff_le_not_ge a b := by rw [UInt32.lt_iff_toNat_lt, UInt32.le_iff_toNat_le, UInt32.le_iff_toNat_le]; omega
  le_antisymm _ _ := UInt32.le_antisymm
  le_total a b := by rw [UInt32.le_iff_toNat_le, UInt32.le_iff_toNat_le]; omega
  toDecidableLE a b := inferInstanceAs (Decidable (a ≤ b))

structure RelocationList where
  sublists : SortedMap UInt32 (List Relocation)

namespace RelocationList

def empty : RelocationList := ⟨SortedMap.empty⟩

def addRelocation (l : RelocationList) (c : RelocationCall) : RelocationList :=
  ⟨l.sublists.alter c.page [] (· ++ [c.relocation])⟩

/-- The list after a sequence of calls. -/
def fill (calls : List RelocationCall) : RelocationList := calls.foldl addRelocation empty

/-- `relocSize` of `sublistSize` before the padding. -/
def relocSize (relocations : List Relocation) : UInt32 := 8 + 2 * UInt32.ofNat relocations.length

def sublistSize (relocations : List Relocation) : UInt32 :=
  relocSize relocations + padding (relocSize relocations)

/-- The type bits `writeSublist` gives an address. -/
def relocType (header : E32ImageHeader) (addr : UInt32) : UInt16 :=
  if addr ≥ header.codeBase ∧ addr ≤ header.codeBase + header.codeSize.toUInt32 then
    KTextRelocType
  else if addr ≥ header.dataBase ∧
      addr ≤ header.dataBase + header.dataSize.toUInt32 + header.bssSize.toUInt32 then
    KDataRelocType
  else
    0

/-- The sixteen bits written for a relocation. -/
def slot (header : E32ImageHeader) (r : Relocation) : UInt16 := r.offset ||| relocType header r.value

def writeSublist (sort : StdSort Relocation.lt) (header : E32ImageHeader) (pagePrefix : UInt32)
    (relocations : List Relocation) : Bytes :=
  writeUint32 pagePrefix ++ writeUint32 (sublistSize relocations) ++
    ((sort.run relocations).flatMap fun r => writeUint16 (slot header r)) ++
    List.replicate (padding (relocSize relocations)).toNat 0

/-- `count`. -/
def count (l : RelocationList) : UInt32 :=
  l.sublists.entries.foldl (fun num e => num + UInt32.ofNat e.2.length) 0

def write (sort : StdSort Relocation.lt) (header : E32ImageHeader) (l : RelocationList) : Bytes :=
  writeUint32 (l.sublists.entries.foldl (fun size e => size + sublistSize e.2) 0) ++
    writeUint32 l.count ++
    l.sublists.entries.flatMap fun e => writeSublist sort header e.1 e.2

end RelocationList

/-! ### The format -/

/-- A page block: page address, block size and the sixteen-bit slots that fill it. -/
structure RelocBlock where
  page : ℕ
  size : ℕ
  slots : List ℕ
  deriving DecidableEq

/-- Zero slots are padding; the low twelve bits of any other slot are an offset in the page. -/
def RelocBlock.offsets (b : RelocBlock) : List ℕ := (b.slots.filter (· ≠ 0)).map fun s => b.page + s % 4096

structure RelocSection where
  size : ℕ
  count : ℕ
  blocks : List RelocBlock
  deriving DecidableEq

def RelocSection.offsets (sec : RelocSection) : List ℕ := sec.blocks.flatMap RelocBlock.offsets

def readSlots : Bytes → List ℕ
  | a :: b :: rest => ofLE [a, b] :: readSlots rest
  | _ => []

/-- The page blocks of an area; every block is at least its eight bytes of head long. -/
def readBlocks (bs : Bytes) : Option (List RelocBlock) :=
  if bs = [] then some []
  else
    let size := ofLE (readAt bs 4 4)
    if _h : 8 ≤ size ∧ size ≤ bs.length then do
      let blocks ← readBlocks (bs.drop size)
      return ⟨ofLE (bs.take 4), size, readSlots ((bs.take size).drop 8)⟩ :: blocks
    else none
  termination_by bs.length
  decreasing_by
    rw [List.length_drop]
    omega

/-- A relocation section: total size, count, then the page blocks. -/
def readRelocSection (bs : Bytes) : Option RelocSection :=
  if 8 ≤ bs.length then do
    let blocks ← readBlocks (readAt bs 8 (ofLE (bs.take 4)))
    return ⟨ofLE (bs.take 4), ofLE (readAt bs 4 4), blocks⟩
  else none

/-- What a section says about the calls it was written for. -/
structure RelocSection.Describes (sec : RelocSection) (calls : List RelocationCall) (bs : Bytes) : Prop where
  offsets : sec.offsets.Perm (calls.map fun c => c.offset.toNat)
  pages : (sec.blocks.map RelocBlock.page).Pairwise (· < ·) ∧ ∀ b ∈ sec.blocks, b.page % 4096 = 0
  ascending : ∀ b ∈ sec.blocks, b.offsets.Pairwise (· ≤ ·)
  block_size : ∀ b ∈ sec.blocks, b.size % 4 = 0 ∧ b.size = 8 + 2 * b.slots.length
  total : bs.length = 8 + sec.size
  count : sec.count = calls.length

/-! ### Sizes -/

/-- The bytes of a page block with `n` relocations: padded to a multiple of four. -/
def blockSize (n : ℕ) : ℕ := 8 + 4 * ((n + 1) / 2)

theorem blockSize_eq (n : ℕ) : blockSize n = 8 + 2 * n + 2 * (n % 2) := by
  unfold blockSize
  omega

namespace RelocationList

theorem relocSize_mod (rs : List Relocation) : (relocSize rs).toNat = (8 + 2 * rs.length) % 2 ^ 32 := by
  have h8 : (8 : UInt32).toNat = 8 := rfl
  have h2 : (2 : UInt32).toNat = 2 := rfl
  rw [relocSize, UInt32.toNat_add, UInt32.toNat_mul, UInt32.toNat_ofNat', h8, h2]
  omega

theorem toNat_relocPadding (rs : List Relocation) : (padding (relocSize rs)).toNat = 2 * (rs.length % 2) := by
  rw [toNat_padding, relocSize_mod]
  omega

theorem toNat_sublistSize (rs : List Relocation) : (sublistSize rs).toNat = blockSize rs.length % 2 ^ 32 := by
  rw [sublistSize, UInt32.toNat_add, relocSize_mod, toNat_relocPadding, blockSize_eq]
  omega

theorem length_flatMap_slots (header : E32ImageHeader) (rs : List Relocation) :
    (rs.flatMap fun r => writeUint16 (slot header r)).length = 2 * rs.length := by
  induction rs with
  | nil => rfl
  | cons r rs ih =>
    rw [List.flatMap_cons, List.length_append, ih, length_writeUint16, List.length_cons]
    omega

theorem length_writeSublist (sort : StdSort Relocation.lt) (header : E32ImageHeader) (p : UInt32)
    (rs : List Relocation) : (writeSublist sort header p rs).length = blockSize rs.length := by
  rw [writeSublist, List.length_append, List.length_append, List.length_append, length_writeUint32,
    length_writeUint32, length_flatMap_slots, sort.length_run, List.length_replicate, toNat_relocPadding,
    blockSize_eq]

/-! ### Reading a block back -/

theorem readSlots_write (v : UInt16) (rest : Bytes) :
    readSlots (writeUint16 v ++ rest) = v.toNat :: readSlots rest := by
  have h : ofLE (leBytes 2 v.toNat) = v.toNat := ofLE_leBytes_of_lt (by norm_num; exact v.toNat_lt)
  show ofLE (leBytes 2 v.toNat) :: readSlots rest = _
  rw [h]

theorem readSlots_flatMap (header : E32ImageHeader) (rs : List Relocation) (rest : Bytes) :
    readSlots ((rs.flatMap fun r => writeUint16 (slot header r)) ++ rest) =
      rs.map (fun r => (slot header r).toNat) ++ readSlots rest := by
  induction rs with
  | nil => rfl
  | cons r rs ih =>
    rw [List.flatMap_cons, List.append_assoc, readSlots_write, ih]
    rfl

theorem readSlots_padding (n : ℕ) : readSlots (List.replicate (2 * (n % 2)) 0) = List.replicate (n % 2) 0 := by
  rcases Nat.mod_two_eq_zero_or_one n with h | h <;> rw [h] <;> rfl

/-- The block a reader finds for a page. -/
def block (sort : StdSort Relocation.lt) (header : E32ImageHeader) (p : UInt32) (rs : List Relocation) : RelocBlock where
  page := p.toNat
  size := blockSize rs.length
  slots := (sort.run rs).map (fun r => (slot header r).toNat) ++ List.replicate (rs.length % 2) 0

theorem readBlocks_append (sort : StdSort Relocation.lt) (header : E32ImageHeader) (p : UInt32)
    (rs : List Relocation) (rest : Bytes) (h : blockSize rs.length < 2 ^ 32) :
    readBlocks (writeSublist sort header p rs ++ rest) =
      (readBlocks rest).map (block sort header p rs :: ·) := by
  have hlen := length_writeSublist sort header p rs
  have hne : writeSublist sort header p rs ++ rest ≠ [] := by
    intro h0
    have h1 := congrArg List.length h0
    rw [List.length_append, hlen, blockSize_eq, List.length_nil] at h1
    omega
  have hpage : ofLE ((writeSublist sort header p rs ++ rest).take 4) = p.toNat := by
    have hw : (writeUint32 p).length = 4 := length_writeUint32 p
    simp only [writeSublist, List.append_assoc]
    rw [← hw, List.take_left, writeUint32, ofLE_leBytes_of_lt (by norm_num; exact p.toNat_lt)]
  have hsize : ofLE (readAt (writeSublist sort header p rs ++ rest) 4 4) = blockSize rs.length := by
    have hw : (writeUint32 p).length = 4 := length_writeUint32 p
    have hw' : (writeUint32 (sublistSize rs)).length = 4 := length_writeUint32 _
    simp only [writeSublist, List.append_assoc, readAt]
    rw [List.drop_left' hw, List.take_left' hw', writeUint32,
      ofLE_leBytes_of_lt (by norm_num; exact UInt32.toNat_lt _), toNat_sublistSize, Nat.mod_eq_of_lt h]
  have hslots : readSlots (((writeSublist sort header p rs ++ rest).take (blockSize rs.length)).drop 8) =
      (block sort header p rs).slots := by
    have hw : (writeUint32 p ++ writeUint32 (sublistSize rs)).length = 8 := by simp
    rw [List.take_left' hlen, writeSublist, List.append_assoc, List.drop_left' hw, readSlots_flatMap,
      toNat_relocPadding, readSlots_padding]
    rfl
  rw [readBlocks, if_neg hne]
  simp only [hsize, hpage, hslots]
  rw [dif_pos ⟨by rw [blockSize_eq]; omega, by rw [List.length_append, hlen]; omega⟩, List.drop_left' hlen]
  cases readBlocks rest with
  | none => rfl
  | some blocks => rfl

theorem readBlocks_flatMap (sort : StdSort Relocation.lt) (header : E32ImageHeader) :
    ∀ {es : List (UInt32 × List Relocation)}, (∀ e ∈ es, blockSize e.2.length < 2 ^ 32) →
      readBlocks (es.flatMap fun e => writeSublist sort header e.1 e.2) =
        some (es.map fun e => block sort header e.1 e.2)
  | [], _ => by rw [List.flatMap_nil, readBlocks, if_pos rfl]; rfl
  | e :: es, h => by
    have hes := readBlocks_flatMap sort header fun e' he' => h e' (List.mem_cons_of_mem _ he')
    rw [List.flatMap_cons, readBlocks_append sort header _ _ _ (h e List.mem_cons_self), hes]
    rfl

/-! ### The list after a sequence of calls -/

/-- The calls for one page, in order. -/
def onPage (calls : List RelocationCall) (p : UInt32) : List RelocationCall := calls.filter fun c => c.page = p

variable (calls : List RelocationCall)

theorem get?_fill (p : UInt32) :
    (fill calls).sublists.get? p =
      if onPage calls p = [] then none else some ((onPage calls p).map RelocationCall.relocation) := by
  induction calls using List.reverseRecOn with
  | nil => rfl
  | append_singleton calls c ih =>
    have hfill : (fill (calls ++ [c])).sublists = (fill calls).sublists.alter c.page [] (· ++ [c.relocation]) := by
      rw [fill, List.foldl_append]
      rfl
    rw [hfill, onPage, List.filter_append]
    by_cases hp : p = c.page
    · subst hp
      rw [SortedMap.get?_alter_self, ih]
      have hc : [c].filter (fun c' => c'.page = c.page) = [c] := by simp
      have hne : calls.filter (fun c' => c'.page = c.page) ++ [c] ≠ [] := by simp
      rw [hc, if_neg hne, List.map_append]
      by_cases h0 : calls.filter (fun c' => c'.page = c.page) = []
      · rw [onPage, if_pos h0, h0]
        rfl
      · rw [onPage, if_neg h0]
        rfl
    · have hc : [c].filter (fun c' => c'.page = p) = [] := by
        rw [List.filter_eq_nil_iff]
        simp [Ne.symm hp]
      rw [SortedMap.get?_alter_of_ne _ hp, ih, hc, List.append_nil]
      rfl

/-- The pages in the order they are written. -/
def pages (calls : List RelocationCall) : List UInt32 := (fill calls).sublists.entries.map Prod.fst

theorem pages_nodup : (pages calls).Nodup := SortedMap.keys_nodup _

theorem mem_pages {calls : List RelocationCall} {p : UInt32} : p ∈ pages calls ↔ ∃ c ∈ calls, c.page = p := by
  have hmem : p ∈ pages calls ↔ onPage calls p ≠ [] := by
    unfold pages
    rw [List.mem_map]
    constructor
    · rintro ⟨⟨p', rs⟩, he, rfl⟩ h0
      rw [SortedMap.mem_entries_iff, get?_fill, if_pos h0] at he
      cases he
    · intro hne
      refine ⟨(p, (onPage calls p).map RelocationCall.relocation), ?_, rfl⟩
      rw [SortedMap.mem_entries_iff, get?_fill, if_neg hne]
  rw [hmem, onPage, Ne, List.filter_eq_nil_iff]
  simp

theorem entries_fill :
    (fill calls).sublists.entries =
      (pages calls).map fun p => (p, (onPage calls p).map RelocationCall.relocation) := by
  rw [pages, List.map_map]
  refine (List.map_id _).symm.trans (List.map_congr_left fun e he => ?_)
  have hget := (SortedMap.mem_entries_iff _ _ _).mp he
  rw [get?_fill] at hget
  split at hget
  · cases hget
  · exact Prod.ext rfl (Option.some.inj hget).symm

theorem flatMap_pages_perm : ((pages calls).flatMap (onPage calls)).Perm calls :=
  flatMap_filter_perm RelocationCall.page (pages_nodup calls) fun c hc => mem_pages.mpr ⟨c, hc, rfl⟩

theorem sum_onPage : ((pages calls).map fun p => (onPage calls p).length).sum = calls.length := by
  rw [← (flatMap_pages_perm calls).length_eq, List.length_flatMap]

end RelocationList

/-- The bytes of the blocks a sequence of calls needs: one block for each page. -/
def sectionSize (calls : List RelocationCall) : ℕ :=
  ((calls.map RelocationCall.page).dedup.map fun p => blockSize (calls.countP fun c => c.page = p)).sum

namespace RelocationList

theorem sectionSize_eq (calls : List RelocationCall) :
    sectionSize calls = ((pages calls).map fun p => blockSize (onPage calls p).length).sum := by
  have hperm : (calls.map RelocationCall.page).dedup.Perm (pages calls) := by
    refine (List.perm_ext_iff_of_nodup (List.nodup_dedup _) (pages_nodup calls)).mpr fun p => ?_
    rw [List.mem_dedup, List.mem_map, mem_pages]
  rw [sectionSize, (hperm.map _).sum_eq]
  simp only [List.countP_eq_length_filter, onPage]

theorem length_le_sectionSize (calls : List RelocationCall) : 2 * calls.length ≤ sectionSize calls := by
  rw [← sum_onPage calls, sectionSize_eq]
  generalize pages calls = ps
  induction ps with
  | nil => simp
  | cons p ps ih =>
    rw [List.map_cons, List.map_cons, List.sum_cons, List.sum_cons, blockSize_eq]
    omega

theorem toNat_foldl_add {α : Type} (f : α → UInt32) (l : List α) (a : UInt32) :
    (l.foldl (fun n e => n + f e) a).toNat = (a.toNat + (l.map fun e => (f e).toNat).sum) % 2 ^ 32 := by
  induction l generalizing a with
  | nil => simp [Nat.mod_eq_of_lt a.toNat_lt]
  | cons e l ih =>
    rw [List.foldl_cons, ih, UInt32.toNat_add, List.map_cons, List.sum_cons]
    omega

/-! ### The section of a sequence of calls -/

/-- The relocations of a page. -/
def sublist (calls : List RelocationCall) (p : UInt32) : List Relocation :=
  (onPage calls p).map RelocationCall.relocation

variable (sort : StdSort Relocation.lt)

/-- The section has a block for each page, in the order of the pages. -/
theorem write_fill (header : E32ImageHeader) (calls : List RelocationCall) :
    write sort header (fill calls) =
      leBytes 4 (sectionSize calls) ++ leBytes 4 calls.length ++
        (pages calls).flatMap fun p => writeSublist sort header p (sublist calls p) := by
  have hsize : ((fill calls).sublists.entries.foldl (fun size e => size + sublistSize e.2) 0).toNat =
      sectionSize calls % 2 ^ 32 := by
    rw [toNat_foldl_add, entries_fill, List.map_map, sectionSize_eq]
    simp only [Function.comp_def, toNat_sublistSize, List.length_map]
    have h0 : (0 : UInt32).toNat = 0 := rfl
    rw [h0, Nat.zero_add]
    generalize pages calls = ps
    induction ps with
    | nil => rfl
    | cons p ps ih =>
      rw [List.map_cons, List.map_cons, List.sum_cons, List.sum_cons]
      omega
  have hcount : (count (fill calls)).toNat = calls.length % 2 ^ 32 := by
    have h0 : (0 : UInt32).toNat = 0 := rfl
    rw [count, toNat_foldl_add, entries_fill, List.map_map, h0, Nat.zero_add, ← sum_onPage calls]
    simp only [Function.comp_def, UInt32.toNat_ofNat', List.length_map]
    generalize pages calls = ps
    induction ps with
    | nil => rfl
    | cons p ps ih =>
      rw [List.map_cons, List.map_cons, List.sum_cons, List.sum_cons]
      omega
  have hmod (n : ℕ) : leBytes 4 (n % 2 ^ 32) = leBytes 4 n := leBytes_mod 4 n
  rw [write, writeUint32, writeUint32, hsize, hcount, hmod, hmod, entries_fill, List.flatMap_map]
  rfl

theorem length_write_fill (header : E32ImageHeader) (calls : List RelocationCall) :
    (write sort header (fill calls)).length = 8 + sectionSize calls := by
  rw [write_fill, List.length_append, List.length_append, length_leBytes, length_leBytes, List.length_flatMap,
    sectionSize_eq]
  simp only [length_writeSublist, sublist, List.length_map]

/-- The blocks a reader finds. -/
def blocks (sort : StdSort Relocation.lt) (header : E32ImageHeader) (calls : List RelocationCall) : List RelocBlock :=
  (pages calls).map fun p => block sort header p (sublist calls p)

/-- The section is read back as the blocks of the calls. -/
theorem readRelocSection_write (header : E32ImageHeader)
    {calls : List RelocationCall} (h : sectionSize calls < 2 ^ 32) :
    readRelocSection (write sort header (fill calls)) =
      some ⟨sectionSize calls, calls.length, blocks sort header calls⟩ := by
  have hlen := length_write_fill sort header calls
  have hcount := length_le_sectionSize calls
  have h4 : (leBytes 4 (sectionSize calls)).length = 4 := length_leBytes 4 _
  have h4' : (leBytes 4 calls.length).length = 4 := length_leBytes 4 _
  have h8 : (leBytes 4 (sectionSize calls) ++ leBytes 4 calls.length).length = 8 := by simp
  have hsize : ofLE ((write sort header (fill calls)).take 4) = sectionSize calls := by
    rw [write_fill, List.append_assoc, List.take_left' h4, ofLE_leBytes_of_lt (by norm_num; omega)]
  have hnum : ofLE (readAt (write sort header (fill calls)) 4 4) = calls.length := by
    rw [write_fill, List.append_assoc, readAt, List.drop_left' h4, List.take_left' h4',
      ofLE_leBytes_of_lt (by norm_num; omega)]
  have harea : readAt (write sort header (fill calls)) 8 (sectionSize calls) =
      (pages calls).flatMap fun p => writeSublist sort header p (sublist calls p) := by
    rw [readAt, List.take_of_length_le (by rw [List.length_drop]; omega), write_fill, List.drop_left' h8]
  have hblocks : readBlocks ((pages calls).flatMap fun p => writeSublist sort header p (sublist calls p)) =
      some (blocks sort header calls) := by
    have hsmall : ∀ e ∈ (pages calls).map (fun p => (p, sublist calls p)), blockSize e.2.length < 2 ^ 32 := by
      intro e he
      obtain ⟨p, hp, rfl⟩ := List.mem_map.mp he
      have hle : blockSize (onPage calls p).length ≤ sectionSize calls := by
        rw [sectionSize_eq]
        exact List.single_le_sum (fun _ _ => Nat.zero_le _) _ (List.mem_map_of_mem hp)
      show blockSize (sublist calls p).length < 2 ^ 32
      rw [sublist, List.length_map]
      omega
    have hread := readBlocks_flatMap sort header hsmall
    rw [List.flatMap_map, List.map_map] at hread
    exact hread
  rw [readRelocSection, if_pos (by omega), hsize, hnum, harea, hblocks]
  rfl

/-! ### Slots -/

theorem relocType_cases (header : E32ImageHeader) (addr : UInt32) :
    relocType header addr = 0 ∨ relocType header addr = 0x1000 ∨ relocType header addr = 0x2000 := by
  unfold relocType
  split
  · exact .inr (.inl rfl)
  · split
    · exact .inr (.inr rfl)
    · exact .inl rfl

theorem toNat_slot (header : E32ImageHeader) {r : Relocation} (h : r.offset.toNat < 4096) :
    (slot header r).toNat = (relocType header r.value).toNat + r.offset.toNat := by
  rw [slot, UInt16.toNat_or, Nat.or_comm]
  rcases relocType_cases header r.value with ht | ht | ht
  · rw [ht]
    simp
  · rw [ht]
    exact (Nat.two_pow_add_eq_or_of_lt (i := 12) h 1).symm
  · rw [ht]
    exact (Nat.two_pow_add_eq_or_of_lt (i := 12) h 2).symm

theorem toNat_relocation_offset (c : RelocationCall) : c.relocation.offset.toNat = c.offset.toNat % 4096 := by
  have hfff : (0xfff : UInt32).toNat = 2 ^ 12 - 1 := rfl
  rw [RelocationCall.relocation, UInt32.toNat_toUInt16, UInt32.toNat_and, hfff, Nat.and_two_pow_sub_one_eq_mod]
  omega

theorem toNat_page (c : RelocationCall) : c.page.toNat = c.offset.toNat / 4096 * 4096 := by
  have hmask : (0xfffff000 : UInt32).toNat = (2 ^ 20 - 1) <<< 12 := rfl
  have hshift : c.offset.toNat / 4096 * 4096 = (c.offset.toNat >>> 12) <<< 12 := by
    rw [Nat.shiftLeft_eq, Nat.shiftRight_eq_div_pow]
  rw [RelocationCall.page, UInt32.toNat_and, hmask, hshift]
  refine Nat.eq_of_testBit_eq fun i => ?_
  rw [Nat.testBit_and, Nat.testBit_shiftLeft, Nat.testBit_shiftLeft, Nat.testBit_two_pow_sub_one,
    Nat.testBit_shiftRight]
  by_cases hi : 12 ≤ i
  · have hadd : 12 + (i - 12) = i := by omega
    rw [hadd]
    by_cases h32 : i < 32
    · have hlt : i - 12 < 20 := by omega
      simp [hi, hlt]
    · have hbig : c.offset.toNat.testBit i = false :=
        Nat.testBit_lt_two_pow (c.offset.toNat_lt.trans_le (Nat.pow_le_pow_right (by omega) (by omega)))
      simp [hbig]
  · simp [hi]

/-- A slot reads as padding exactly when nothing distinguishes the site from padding. -/
theorem slot_eq_zero (header : E32ImageHeader) (c : RelocationCall) :
    (slot header c.relocation).toNat = 0 ↔ c.offset.toNat % 4096 = 0 ∧ relocType header c.value = 0 := by
  have hoff := toNat_relocation_offset c
  have hlt : c.relocation.offset.toNat < 4096 := by
    rw [hoff]
    exact Nat.mod_lt _ (by omega)
  rw [toNat_slot header hlt, hoff]
  have hty : (relocType header c.relocation.value).toNat = 0 ↔ relocType header c.value = 0 :=
    ⟨fun h => UInt16.toNat_inj.mp h, fun h => UInt16.toNat_inj.mpr h⟩
  rw [← hty]
  omega

theorem slot_mod (header : E32ImageHeader) (c : RelocationCall) :
    (slot header c.relocation).toNat % 4096 = c.offset.toNat % 4096 := by
  have hoff := toNat_relocation_offset c
  have hlt : c.relocation.offset.toNat < 4096 := by
    rw [hoff]
    exact Nat.mod_lt _ (by omega)
  rw [toNat_slot header hlt, hoff]
  rcases relocType_cases header c.relocation.value with ht | ht | ht
  · rw [ht]
    show (0 + _) % 4096 = _
    omega
  · rw [ht]
    show (4096 + _) % 4096 = _
    omega
  · rw [ht]
    show (8192 + _) % 4096 = _
    omega

/-- The sites of a page as they are sorted, without those a reader takes for padding. -/
def readable (sort : StdSort Relocation.lt) (header : E32ImageHeader) (calls : List RelocationCall) (p : UInt32) :
    List Relocation :=
  (sort.run (sublist calls p)).filter fun r => (slot header r).toNat ≠ 0

theorem mem_sublist {calls : List RelocationCall} {p : UInt32} {r : Relocation} (h : r ∈ sublist calls p) :
    ∃ c ∈ calls, c.page = p ∧ c.relocation = r := by
  obtain ⟨c, hc, hr⟩ := List.mem_map.mp h
  obtain ⟨hc, hp⟩ := List.mem_filter.mp hc
  exact ⟨c, hc, by simpa using hp, hr⟩

theorem block_offsets (header : E32ImageHeader) (calls : List RelocationCall) (p : UInt32) :
    (block sort header p (sublist calls p)).offsets =
      (readable sort header calls p).map fun r => p.toNat + r.offset.toNat := by
  have hpad : (List.replicate ((sublist calls p).length % 2) 0).filter (fun s => decide (s ≠ 0)) = [] := by
    refine List.filter_eq_nil_iff.mpr fun s hs => ?_
    simp [List.eq_of_mem_replicate hs]
  rw [RelocBlock.offsets, block, List.filter_append, hpad, List.append_nil, List.filter_map, List.map_map, readable]
  refine List.map_congr_left fun r hr => ?_
  obtain ⟨hr, -⟩ := List.mem_filter.mp hr
  obtain ⟨c, -, -, rfl⟩ := mem_sublist (sort.mem_run.mp hr)
  show p.toNat + (slot header c.relocation).toNat % 4096 = p.toNat + c.relocation.offset.toNat
  rw [slot_mod, toNat_relocation_offset]

/-- Where every slot is told from padding, a page gives back the offsets added on it. -/
theorem block_offsets_perm (header : E32ImageHeader) {calls : List RelocationCall}
    (h : ∀ c ∈ calls, (slot header c.relocation).toNat ≠ 0) (p : UInt32) :
    (block sort header p (sublist calls p)).offsets.Perm ((onPage calls p).map fun c => c.offset.toNat) := by
  have hall : readable sort header calls p = sort.run (sublist calls p) := by
    refine List.filter_eq_self.mpr fun r hr => ?_
    obtain ⟨c, hc, -, rfl⟩ := mem_sublist (sort.mem_run.mp hr)
    exact decide_eq_true (h c hc)
  rw [block_offsets, hall]
  refine ((sort.perm _).map _).trans (List.Perm.of_eq ?_)
  rw [sublist, List.map_map]
  refine List.map_congr_left fun c hc => ?_
  obtain ⟨-, hp⟩ := List.mem_filter.mp hc
  have hp : c.page = p := by simpa using hp
  show p.toNat + c.relocation.offset.toNat = c.offset.toNat
  rw [← hp, toNat_page, toNat_relocation_offset]
  omega

theorem offsets_perm (header : E32ImageHeader) {calls : List RelocationCall}
    (h : ∀ c ∈ calls, (slot header c.relocation).toNat ≠ 0) :
    ((blocks sort header calls).flatMap RelocBlock.offsets).Perm (calls.map fun c => c.offset.toNat) := by
  rw [blocks, List.flatMap_map]
  refine List.Perm.trans ?_ ((flatMap_pages_perm calls).map _)
  rw [List.map_flatMap]
  exact List.Perm.flatMap_left _ fun p _ => block_offsets_perm sort header h p

theorem length_offsets (header : E32ImageHeader) (calls : List RelocationCall) :
    ((blocks sort header calls).flatMap RelocBlock.offsets).length =
      calls.countP fun c => (slot header c.relocation).toNat ≠ 0 := by
  rw [blocks, List.flatMap_map, List.length_flatMap, ← (flatMap_pages_perm calls).countP_eq, List.countP_flatMap]
  congr 1
  refine List.map_congr_left fun p _ => ?_
  show (block sort header p (sublist calls p)).offsets.length = _
  rw [block_offsets, List.length_map, readable, ← List.countP_eq_length_filter,
    (sort.perm _).countP_eq, sublist, List.countP_map]
  rfl

theorem pages_ascending (calls : List RelocationCall) : (pages calls).Pairwise (· < ·) :=
  List.pairwise_map.mpr (fill calls).sublists.ascending

theorem block_ascending (header : E32ImageHeader) (calls : List RelocationCall)
    (p : UInt32) : (block sort header p (sublist calls p)).offsets.Pairwise (· ≤ ·) := by
  rw [block_offsets]
  refine List.pairwise_map.mpr (((sort.sorted _).filter _).imp fun {r s} h => ?_)
  have hle : ¬ s.offset < r.offset := by simpa [Relocation.lt] using h
  have hle : r.offset.toNat ≤ s.offset.toNat := by
    rw [UInt16.lt_iff_toNat_lt] at hle
    omega
  omega

/-- **Relocation sections.**  The blocks say what was added when no site at the start of a page is left
without a type. -/
theorem describes (header : E32ImageHeader) {calls : List RelocationCall}
    (h : ∀ c ∈ calls, (slot header c.relocation).toNat ≠ 0) :
    RelocSection.Describes ⟨sectionSize calls, calls.length, blocks sort header calls⟩ calls
      (write sort header (fill calls)) where
  offsets := offsets_perm sort header h
  pages := by
    constructor
    · rw [blocks, List.map_map]
      refine List.pairwise_map.mpr ((pages_ascending calls).imp fun hlt => ?_)
      exact UInt32.lt_iff_toNat_lt.mp hlt
    · intro b hb
      obtain ⟨p, hp, rfl⟩ := List.mem_map.mp hb
      obtain ⟨c, -, rfl⟩ := mem_pages.mp hp
      show c.page.toNat % 4096 = 0
      rw [toNat_page]
      omega
  ascending := by
    intro b hb
    obtain ⟨p, -, rfl⟩ := List.mem_map.mp hb
    exact block_ascending sort header calls p
  block_size := by
    intro b hb
    obtain ⟨p, -, rfl⟩ := List.mem_map.mp hb
    have hrun := sort.length_run (sublist calls p)
    show blockSize (sublist calls p).length % 4 = 0 ∧ blockSize (sublist calls p).length = 8 + 2 * List.length _
    rw [block, List.length_append, List.length_map, List.length_replicate, hrun]
    have heq := blockSize_eq (sublist calls p).length
    constructor <;> omega
  total := length_write_fill sort header calls
  count := rfl

/-- A section that says what was added can only have been written without wrapped sizes, and with every
slot told from padding. -/
theorem of_describes (header : E32ImageHeader) {calls : List RelocationCall}
    {sec : RelocSection} (hread : readRelocSection (write sort header (fill calls)) = some sec)
    (hd : sec.Describes calls (write sort header (fill calls))) :
    sectionSize calls < 2 ^ 32 ∧ ∀ c ∈ calls, (slot header c.relocation).toNat ≠ 0 := by
  have hsize : sectionSize calls < 2 ^ 32 := by
    have htotal := hd.total
    rw [length_write_fill] at htotal
    unfold readRelocSection at hread
    split at hread
    · obtain ⟨bs, -, hsec⟩ := Option.bind_eq_some_iff.mp hread
      have hfield : ofLE ((write sort header (fill calls)).take 4) = sec.size :=
        congrArg RelocSection.size (Option.some.inj hsec)
      have hlt := ofLE_take_lt 4 (write sort header (fill calls))
      norm_num at hlt
      omega
    · cases hread
  refine ⟨hsize, ?_⟩
  rw [readRelocSection_write sort header hsize] at hread
  have hperm := hd.offsets
  rw [← Option.some.inj hread] at hperm
  have hlen := hperm.length_eq
  rw [RelocSection.offsets, length_offsets, List.length_map] at hlen
  intro c hc
  exact of_decide_eq_true (List.countP_eq_length.mp hlen c hc)

end RelocationList

/-! ### The claim about every sequence of calls -/

/-- **Relocation sections.**  What `write` puts down for a sequence of calls reads back as just these
calls exactly when the blocks are shorter than 4 GiB and every site at the start of a page has a value in
the code or in the data. -/
theorem write_describes_iff (sort : StdSort Relocation.lt) (header : E32ImageHeader) (calls : List RelocationCall) :
    (∃ sec, readRelocSection ((RelocationList.fill calls).write sort header) = some sec ∧
        sec.Describes calls ((RelocationList.fill calls).write sort header)) ↔
      sectionSize calls < 2 ^ 32 ∧
        ∀ c ∈ calls, c.offset.toNat % 4096 = 0 → RelocationList.relocType header c.value ≠ 0 := by
  have hslots : (∀ c ∈ calls, c.offset.toNat % 4096 = 0 → RelocationList.relocType header c.value ≠ 0) ↔
      ∀ c ∈ calls, (RelocationList.slot header c.relocation).toNat ≠ 0 := by
    refine forall₂_congr fun c _ => ?_
    rw [Ne, Ne, RelocationList.slot_eq_zero, not_and]
  rw [hslots]
  constructor
  · rintro ⟨sec, hread, hd⟩
    exact RelocationList.of_describes sort header hread hd
  · rintro ⟨hsize, h⟩
    exact ⟨_, RelocationList.readRelocSection_write sort header hsize, RelocationList.describes sort header h⟩

/-- Merge sort by offset. -/
def mergeSortOffsets : StdSort Relocation.lt :=
  StdSort.ofMergeSort
    (fun a b c hab hbc => by
      simp only [Relocation.lt, decide_eq_false_iff_not, UInt16.lt_iff_toNat_lt] at hab hbc ⊢
      omega)
    (fun a b hab => by
      simp only [Relocation.lt, decide_eq_false_iff_not, decide_eq_true_eq, UInt16.lt_iff_toNat_lt] at hab ⊢
      omega)

/-- A word at `0x1000` that holds the address `0x10`, in front of the code: its slot is zero. -/
theorem write_untyped_page_start :
    ¬ ∃ sec, readRelocSection ((RelocationList.fill [⟨0x1000, 0x10⟩]).write mergeSortOffsets
          { E32ImageHeader.cleared with codeBase := 0x8000, codeSize := 0x2000, dataBase := 0x400000 }) = some sec ∧
        sec.Describes [⟨0x1000, 0x10⟩] ((RelocationList.fill [⟨0x1000, 0x10⟩]).write mergeSortOffsets
          { E32ImageHeader.cleared with codeBase := 0x8000, codeSize := 0x2000, dataBase := 0x400000 }) := by
  rintro ⟨sec, hread, hd⟩
  have h := (RelocationList.of_describes _ _ hread hd).2 ⟨0x1000, 0x10⟩ List.mem_cons_self
  exact h (by decide)

end GnuPoc.E32
