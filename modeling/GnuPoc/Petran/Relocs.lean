import GnuPoc.Lib.ByteFile

/-!
# GnuPoc.Petran.Relocs — the relocation sections of an E32 image (`pe_reloc.cpp`)

The sites of a PE file come as a list with the section of each.  `CreateCodeRelocs` and
`CreateDataRelocs` take those of their sections, in pages; `RelocateSection` walks a section.
`TInt` counters are natural numbers, and a size that does not fit a `TInt` stops the run.
-/

namespace GnuPoc.Petran

open GnuPoc.Lib

/-- The sections of a PE file, in the order of `KTextSection` … `KRelocSection`. -/
inductive Section
  | KTextSection | KConstSection | KExportSection | KDataSection | KBssSection | KImportSection
  | KCrtSection | KRelocSection
  deriving DecidableEq, Repr

/-- `relocs[i]` and `relocsection[i]`. -/
structure Site where
  reloc : UInt32
  section_ : Section
  deriving DecidableEq, Repr

def word16 (v : UInt16) : Bytes := leBytes 2 v.toNat

def word32 (v : UInt32) : Bytes := leBytes 4 v.toNat

@[simp] theorem length_word16 (v : UInt16) : (word16 v).length = 2 := length_leBytes ..

@[simp] theorem length_word32 (v : UInt32) : (word32 v).length = 4 := length_leBytes ..

/-- A `TInt` with these bits. -/
def tint (n : ℕ) : ℤ := if n % 2 ^ 32 < 2 ^ 31 then n % 2 ^ 32 else n % 2 ^ 32 - 2 ^ 32

/-! ### Sizes -/

def isCode : Section → Bool
  | .KTextSection | .KConstSection | .KCrtSection => true
  | _ => false

def isData : Section → Bool
  | .KDataSection => true
  | _ => false

def pageOf (reloc : UInt32) : UInt32 := reloc &&& 0xfffff000

/-- `if (bytecount%4!=0) bytecount+=2`. -/
def pad (bytecount : ℕ) : ℕ := if bytecount % 4 ≠ 0 then bytecount + 2 else bytecount

/-- The loop of `sizeOfCodeRelocs` and of `sizeOfDataRelocs`. -/
def sizeLoop (wanted : Section → Bool) : ℕ → UInt32 → List Site → ℕ
  | bytecount, _, [] => pad bytecount
  | bytecount, page, site :: sites =>
    if wanted site.section_ then
      if page ≠ pageOf site.reloc then sizeLoop wanted (pad bytecount + 8 + 2) (pageOf site.reloc) sites
      else sizeLoop wanted (bytecount + 2) page sites
    else sizeLoop wanted bytecount page sites

def sizeOfRelocs (wanted : Section → Bool) (sites : List Site) : ℕ := sizeLoop wanted 0 0xffffffff sites

def sizeOfCodeRelocs (sites : List Site) : ℕ := sizeOfRelocs isCode sites

def sizeOfDataRelocs (sites : List Site) : ℕ := sizeOfRelocs isData sites

/-! ### Writing -/

/-- The variables of the loop that writes; `data` and `startofblock` are offsets behind the header. -/
structure WriteState where
  mem : Bytes
  data : ℕ
  startofblock : ℕ
  page : UInt32
  pagesize : ℕ
  nrelocs : ℕ

/-- `if (pagesize%4!=0)`: a zero entry. -/
def padBlock (st : WriteState) : Outcome WriteState :=
  if st.pagesize % 4 ≠ 0 then do
    let mem ← poke st.mem st.data (word16 0)
    .ok { st with
      mem := mem
      data := st.data + 2
      pagesize := st.pagesize + 2 }
  else .ok st

/-- Padding, then the page and the size in front of the block. -/
def closeBlock (st : WriteState) : Outcome WriteState := do
  let st ← padBlock st
  let mem ← poke st.mem st.startofblock (word32 st.page)
  let mem ← poke mem (st.startofblock + 4) (word32 (UInt32.ofNat st.pagesize))
  .ok { st with mem := mem }

/-- `page!=p`: the old block is closed and a new one begins. -/
def turnPage (p : UInt32) (st : WriteState) : Outcome WriteState :=
  if st.page ≠ p then do
    let st ← closeBlock st
    .ok { st with
      pagesize := 8
      page := p
      startofblock := st.data
      data := st.data + 8 }
  else .ok st

/-- `(relocs[i]&0xfff)|0x3000`. -/
def entry (reloc : UInt32) : Bytes := word16 ((reloc &&& 0xfff) ||| 0x3000).toUInt16

def writeSite (reloc : UInt32) (st : WriteState) : Outcome WriteState := do
  let st ← turnPage (pageOf reloc) st
  let mem ← poke st.mem st.data (entry reloc)
  .ok { st with
    mem := mem
    data := st.data + 2
    pagesize := st.pagesize + 2
    nrelocs := st.nrelocs + 1 }

def writeLoop (wanted : Section → Bool) : List Site → WriteState → Outcome WriteState
  | [], st => .ok st
  | site :: sites, st =>
    if wanted site.section_ then do
      let st ← writeSite site.reloc st
      writeLoop wanted sites st
    else writeLoop wanted sites st

/-- The variables before the loop. -/
def WriteState.start (mem : Bytes) : WriteState := ⟨mem, 0, 0, 0xffffffff, 8, 0⟩

/-- The loop and the end of the last block. -/
def writeBlocks (wanted : Section → Bool) (sites : List Site) (mem : Bytes) : Outcome WriteState := do
  let st ← writeLoop wanted sites (.start mem)
  closeBlock st

/-- `CreateCodeRelocs` and `CreateDataRelocs`: the section and `aSize`; no section without sites. -/
def createRelocs (heap : Heap) (wanted : Section → Bool) (sites : List Site) :
    Outcome (Option Bytes × ℕ) :=
  let bytecount := sizeOfRelocs wanted sites
  if bytecount = 0 then .ok (none, 0)
  else if 2 ^ 31 ≤ bytecount + 8 then .error .undefined
  else do
    let st ← writeBlocks wanted sites ((heap.new (bytecount + 8)).drop 8)
    .ok (some (word32 (UInt32.ofNat bytecount) ++ word32 (UInt32.ofNat st.nrelocs) ++ st.mem), bytecount + 8)

def CreateCodeRelocs (heap : Heap) (sites : List Site) : Outcome (Option Bytes × ℕ) :=
  createRelocs heap isCode sites

def CreateDataRelocs (heap : Heap) (sites : List Site) : Outcome (Option Bytes × ℕ) :=
  createRelocs heap isData sites

/-! ### Walking -/

section
variable {S : Type}

/-- The loop of `RelocateSection`; `visit` is what it does at a site, and what it leaves unread is returned. -/
def walkLoop (visit : UInt32 → S → Outcome S) : ℤ → ℤ → UInt32 → Bytes → S → Outcome (S × Bytes)
  | i, size, page, relocs, s =>
    if i ≤ 0 then .ok (s, relocs)
    else if 0 < size then
      match relocs with
      | a :: b :: rest =>
        let offset := UInt32.ofNat (ofLE [a, b])
        if offset ≠ 0 then do
          let s ← visit (page + (offset &&& 0xfff)) s
          walkLoop visit (i - 1) (size - 2) page rest s
        else walkLoop visit i (size - 2) page rest s
      | _ => .error .undefined
    else
      match relocs with
      | a :: b :: c :: d :: e :: f :: g :: h :: rest =>
        walkLoop visit i (tint (ofLE [e, f, g, h]) - 8) (UInt32.ofNat (ofLE [a, b, c, d])) rest s
      | _ => .error .undefined

/-- `RelocateSection` with another action at the sites. -/
def walkSection (visit : UInt32 → S → Outcome S) (aRelocs : Bytes) (s : S) : Outcome (S × Bytes) :=
  if aRelocs.length < 8 then .error .undefined
  else walkLoop visit (tint (ofLE (readAt aRelocs 4 4))) 0 0 (aRelocs.drop 8) s

end

/-- What `RelocateSection` reads of the image and its arguments. -/
structure RelocateContext where
  iCodeBase : UInt32
  iCodeSize : UInt32
  iTextSize : UInt32
  numberOfImports : UInt32
  aCodeDelta : UInt32
  aDataDelta : UInt32
  aImagePtr : UInt32

/-- The section at `aPtr` and `aIATRefs`. -/
structure Relocated where
  image : Bytes
  aIATRefs : List UInt32
  deriving DecidableEq

/-- What `RelocateSection` does at a site.  An entry of the import address table that is referred to twice
keeps its first reference. -/
def relocateWord (ctx : RelocateContext) (va : UInt32) (s : Relocated) : Outcome Relocated :=
  if s.image.length < va.toNat + 4 then .error .undefined
  else
    let data := UInt32.ofNat (ofLE (readAt s.image va.toNat 4))
    let iatStart := ctx.iCodeBase + ctx.iTextSize
    if iatStart ≤ data ∧ data < iatStart + ctx.numberOfImports * 4 then
      let iatNum := ((data - iatStart) / 4).toNat
      match s.aIATRefs[iatNum]? with
      | none => .error .undefined
      | some ref =>
        if 65535 < ref then .ok s
        else .ok { s with aIATRefs := s.aIATRefs.set iatNum (ctx.aImagePtr + va) }
    else if ctx.iCodeBase ≤ data ∧ data < ctx.iCodeBase + ctx.iCodeSize then
      .ok { s with image := writeAt s.image va.toNat (word32 (data + ctx.aCodeDelta)) }
    else .ok { s with image := writeAt s.image va.toNat (word32 (data + ctx.aDataDelta)) }

def RelocateSection (ctx : RelocateContext) (aRelocs : Bytes) (s : Relocated) : Outcome (Relocated × Bytes) :=
  walkSection (relocateWord ctx) aRelocs s

/-! ### Offsets and entries -/

theorem pageOf_add_offset (r : UInt32) : pageOf r + (r &&& 0xfff) = r := by
  apply UInt32.toBitVec_inj.mp
  show (r.toBitVec &&& 0xfffff000#32) + (r.toBitVec &&& 0xfff#32) = r.toBitVec
  have hmask : (0xfffff000#32 : BitVec 32) ||| 0xfff#32 = BitVec.allOnes 32 := by decide
  have hdisjoint : (r.toBitVec &&& 0xfffff000#32) &&& (r.toBitVec &&& 0xfff#32) = 0#32 := by
    have h : (0xfffff000#32 : BitVec 32) &&& 0xfff#32 = 0#32 := by decide
    rw [BitVec.and_assoc, ← BitVec.and_assoc 0xfffff000#32, BitVec.and_comm 0xfffff000#32, BitVec.and_assoc,
      h, BitVec.and_zero, BitVec.and_zero]
  rw [BitVec.add_eq_or_of_and_eq_zero _ _ hdisjoint, ← BitVec.and_or_distrib_left, hmask, BitVec.and_allOnes]

theorem or_and (u v w : UInt32) : (u ||| v) &&& w = (u &&& w) ||| (v &&& w) :=
  UInt32.toBitVec_inj.mp BitVec.and_or_distrib_right

theorem entry_eq (r : UInt32) : ∃ a b, entry r = [a, b] ∧ UInt32.ofNat (ofLE [a, b]) ≠ 0 ∧
    UInt32.ofNat (ofLE [a, b]) &&& 0xfff = r &&& 0xfff := by
  set v := (r &&& 0xfff) ||| 0x3000 with hv
  have hlt : v.toNat < 2 ^ 16 := by
    rw [hv, UInt32.toNat_or, UInt32.toNat_and]
    exact Nat.or_lt_two_pow (Nat.lt_of_le_of_lt Nat.and_le_right (by decide)) (by decide)
  have hread : UInt32.ofNat (ofLE (entry r)) = v := by
    have h16 : v.toUInt16.toNat = v.toNat := by
      rw [UInt32.toNat_toUInt16, Nat.mod_eq_of_lt hlt]
    rw [entry, word16, ← hv, ofLE_leBytes_of_lt (by rw [h16]; exact hlt), h16, UInt32.ofNat_toNat]
  obtain ⟨a, b, hab⟩ : ∃ a b, entry r = [a, b] := ⟨_, _, rfl⟩
  rw [hab] at hread
  refine ⟨a, b, hab, ?_, ?_⟩
  · rw [hread]
    intro h0
    have h : v &&& 0x3000 = 0x3000 := by
      rw [hv, or_and]
      have hself : (0x3000 : UInt32) &&& 0x3000 = 0x3000 := rfl
      have hzero : (0xfff : UInt32) &&& 0x3000 = 0 := rfl
      rw [hself, UInt32.and_assoc, hzero, UInt32.and_zero, UInt32.zero_or]
    rw [h0] at h
    exact absurd h (by decide)
  · have hself : (0xfff : UInt32) &&& 0xfff = 0xfff := rfl
    have hzero : (0x3000 : UInt32) &&& 0xfff = 0 := rfl
    rw [hread, hv, or_and, UInt32.and_assoc, hself, hzero, UInt32.or_zero]

theorem length_entry (r : UInt32) : (entry r).length = 2 := length_word16 _

theorem length_entries (rs : List UInt32) : (rs.flatMap entry).length = 2 * rs.length := by
  induction rs with
  | nil => rfl
  | cons r rs ih =>
    rw [List.flatMap_cons, List.length_append, length_entry, ih, List.length_cons]
    omega

/-! ### Blocks -/

/-- The sites of one page, in the order of the list. -/
structure Block where
  page : UInt32
  sites : List UInt32
  onPage : ∀ r ∈ sites, pageOf r = page
  nonempty : sites ≠ []

def Block.size (b : Block) : ℕ := 8 + 2 * b.sites.length + 2 * (b.sites.length % 2)

def Block.padding (b : Block) : Bytes := List.replicate (2 * (b.sites.length % 2)) 0

def Block.bytes (b : Block) : Bytes :=
  word32 b.page ++ word32 (UInt32.ofNat b.size) ++ b.sites.flatMap entry ++ b.padding

theorem Block.length_bytes (b : Block) : b.bytes.length = b.size := by
  rw [Block.bytes, Block.padding, List.length_append, List.length_append, List.length_append, length_word32,
    length_word32, length_entries, List.length_replicate, Block.size]

theorem Block.size_mod (b : Block) : b.size % 4 = 0 := by
  unfold Block.size
  omega

theorem length_blocks_mod (blocks : List Block) : (blocks.flatMap Block.bytes).length % 4 = 0 := by
  induction blocks with
  | nil => rfl
  | cons b blocks ih =>
    have := b.size_mod
    rw [List.flatMap_cons, List.length_append, Block.length_bytes]
    omega

/-! ### The loops on the sites they take -/

/-- The sites of the wanted sections. -/
def sitesIn (wanted : Section → Bool) (sites : List Site) : List UInt32 :=
  (sites.filter fun site => wanted site.section_).map Site.reloc

theorem sitesIn_cons_of_pos {wanted : Section → Bool} {site : Site} (sites : List Site)
    (h : wanted site.section_ = true) : sitesIn wanted (site :: sites) = site.reloc :: sitesIn wanted sites := by
  simp [sitesIn, h]

theorem sitesIn_cons_of_neg {wanted : Section → Bool} {site : Site} (sites : List Site)
    (h : ¬ wanted site.section_ = true) : sitesIn wanted (site :: sites) = sitesIn wanted sites := by
  simp [sitesIn, h]

/-- `sizeLoop` on the sites it takes. -/
def sizes : ℕ → UInt32 → List UInt32 → ℕ
  | bytecount, _, [] => pad bytecount
  | bytecount, page, r :: rs =>
    if page ≠ pageOf r then sizes (pad bytecount + 8 + 2) (pageOf r) rs else sizes (bytecount + 2) page rs

theorem sizeLoop_eq (wanted : Section → Bool) (sites : List Site) : ∀ bytecount page,
    sizeLoop wanted bytecount page sites = sizes bytecount page (sitesIn wanted sites) := by
  induction sites with
  | nil => exact fun _ _ => rfl
  | cons site sites ih =>
    intro bytecount page
    by_cases hw : wanted site.section_
    · rw [sizeLoop, if_pos hw, sitesIn_cons_of_pos sites hw, sizes, ih, ih]
    · rw [sizeLoop, if_neg hw, sitesIn_cons_of_neg sites hw, ih]

theorem writeLoop_eq (wanted : Section → Bool) (sites : List Site) : ∀ st,
    writeLoop wanted sites st = (sitesIn wanted sites).foldlM (fun st r => writeSite r st) st := by
  induction sites with
  | nil => exact fun _ => rfl
  | cons site sites ih =>
    intro st
    by_cases hw : wanted site.section_
    · rw [writeLoop, if_pos hw, sitesIn_cons_of_pos sites hw, List.foldlM_cons]
      simp only [ih]
    · rw [writeLoop, if_neg hw, sitesIn_cons_of_neg sites hw, ih]

theorem le_pad (n : ℕ) : n ≤ pad n := by
  unfold pad
  split_ifs
  · omega
  · omega

theorem le_sizes (rs : List UInt32) : ∀ bytecount page, pad bytecount ≤ sizes bytecount page rs := by
  induction rs with
  | nil => exact fun _ _ => le_rfl
  | cons r rs ih =>
    intro bytecount page
    have hmono : pad bytecount ≤ pad (bytecount + 2) := by
      unfold pad
      split_ifs
      all_goals omega
    rw [sizes]
    split
    · have h₁ := ih (pad bytecount + 8 + 2) (pageOf r)
      have h₂ := le_pad (pad bytecount + 8 + 2)
      omega
    · exact hmono.trans (ih _ _)

/-! ### The invariant of the writing loop -/

/-- `done` is written out; the entries of the current block stand behind room for its head. -/
structure Open (st : WriteState) (done : List Block) (cur : List UInt32) : Prop where
  mem : ∃ head tail, head.length = 8 ∧
    st.mem = done.flatMap Block.bytes ++ (head ++ cur.flatMap entry) ++ tail
  startofblock : st.startofblock = (done.flatMap Block.bytes).length
  data : st.data = st.startofblock + 8 + 2 * cur.length
  pagesize : st.pagesize = 8 + 2 * cur.length
  onPage : ∀ r ∈ cur, pageOf r = st.page
  nonempty : cur ≠ []
  nrelocs : st.nrelocs = (done.flatMap Block.sites ++ cur).length

/-- Only whole blocks are written. -/
structure Closed (st : WriteState) (done : List Block) : Prop where
  mem : ∃ tail, st.mem = done.flatMap Block.bytes ++ tail
  data : st.data = (done.flatMap Block.bytes).length
  nrelocs : st.nrelocs = (done.flatMap Block.sites).length

section
variable {st : WriteState} {done : List Block} {cur : List UInt32}

/-- The current block. -/
def Open.block (h : Open st done cur) : Block := ⟨st.page, cur, h.onPage, h.nonempty⟩

theorem Open.data_mod (h : Open st done cur) : st.data % 4 = st.pagesize % 4 := by
  have := length_blocks_mod done
  rw [h.data, h.startofblock, h.pagesize]
  omega

theorem Open.pad_data (h : Open st done cur) : pad st.data = st.startofblock + h.block.size := by
  have hm := h.data_mod
  have hp := h.pagesize
  have hs : h.block.size = 8 + 2 * cur.length + 2 * (cur.length % 2) := rfl
  rw [hs, pad, hm, hp, h.data]
  split
  · omega
  · omega

theorem Open.padBlock (h : Open st done cur) (hroom : pad st.data ≤ st.mem.length) :
    ∃ head tail, head.length = 8 ∧
      padBlock st = .ok { st with
        mem := done.flatMap Block.bytes ++ (head ++ cur.flatMap entry) ++ h.block.padding ++ tail
        data := pad st.data
        pagesize := h.block.size } ∧
      (done.flatMap Block.bytes ++ (head ++ cur.flatMap entry) ++ h.block.padding ++ tail).length =
        st.mem.length := by
  obtain ⟨head, tail, hhead, hmem⟩ := h.mem
  have hsize : h.block.size = 8 + 2 * cur.length + 2 * (cur.length % 2) := rfl
  have hpadding : h.block.padding = List.replicate (2 * (cur.length % 2)) 0 := rfl
  have hmod := h.data_mod
  have hpagesize := h.pagesize
  by_cases hodd : st.pagesize % 4 ≠ 0
  · have hpad : pad st.data = st.data + 2 := by
      rw [pad, if_pos (by rw [hmod]; exact hodd)]
    have hone : cur.length % 2 = 1 := by omega
    have hdata : st.data = (done.flatMap Block.bytes ++ (head ++ cur.flatMap entry)).length := by
      rw [List.length_append, List.length_append, hhead, length_entries, h.data, h.startofblock]
      omega
    have htail : (word16 0).length ≤ tail.length := by
      rw [length_word16]
      rw [hpad, hdata, hmem] at hroom
      simp only [List.length_append] at hroom
      omega
    have hzeros : word16 0 = h.block.padding := by
      rw [hpadding, hone]
      rfl
    have hlen : h.block.padding.length = 2 := by
      rw [← hzeros, length_word16]
    refine ⟨head, tail.drop 2, hhead, ?_, ?_⟩
    · rw [Petran.padBlock, if_pos hodd, hmem, hdata, poke_front htail, outcome_ok_bind, ← hdata, hpad, hsize,
        hpagesize, hone, hzeros, hlen]
    · rw [hmem, hpadding, hone]
      rw [length_word16] at htail
      simp only [List.length_append, List.length_replicate, List.length_drop]
      omega
  · have hpad : pad st.data = st.data := by
      rw [pad, if_neg (by rw [hmod]; exact hodd)]
    have hzero : cur.length % 2 = 0 := by omega
    refine ⟨head, tail, hhead, ?_, ?_⟩
    · rw [Petran.padBlock, if_neg hodd, hpad, hsize, hpadding, hzero]
      simp only [Nat.mul_zero, List.replicate_zero, List.append_nil, Nat.add_zero, ← hmem, ← hpagesize]
    · rw [hmem, hpadding, hzero]
      simp only [Nat.mul_zero, List.replicate_zero, List.append_nil]

theorem Open.close (h : Open st done cur) (hroom : pad st.data ≤ st.mem.length) :
    ∃ st', closeBlock st = .ok st' ∧ Closed st' (done ++ [h.block]) ∧ st'.mem.length = st.mem.length ∧
      st'.data = pad st.data := by
  obtain ⟨head, tail, hhead, hpadded, hlen⟩ := h.padBlock hroom
  set A := done.flatMap Block.bytes with hA
  obtain ⟨h₁, h₂, hl₁, hl₂, rfl⟩ : ∃ h₁ h₂ : Bytes, h₁.length = 4 ∧ h₂.length = 4 ∧ head = h₁ ++ h₂ :=
    ⟨head.take 4, head.drop 4, by rw [List.length_take]; omega, by rw [List.length_drop]; omega,
      (List.take_append_drop 4 head).symm⟩
  have hfirst : poke (A ++ (h₁ ++ h₂ ++ cur.flatMap entry) ++ h.block.padding ++ tail) st.startofblock
      (word32 st.page) = .ok (A ++ word32 st.page ++
        (h₂ ++ cur.flatMap entry ++ h.block.padding ++ tail)) := by
    have heq : A ++ (h₁ ++ h₂ ++ cur.flatMap entry) ++ h.block.padding ++ tail =
        A ++ h₁ ++ (h₂ ++ cur.flatMap entry ++ h.block.padding ++ tail) := by
      simp only [List.append_assoc]
    rw [heq, h.startofblock]
    exact poke_middle _ (by rw [length_word32, hl₁])
  have hsecond : poke (A ++ word32 st.page ++ (h₂ ++ cur.flatMap entry ++ h.block.padding ++ tail))
      (st.startofblock + 4) (word32 (UInt32.ofNat h.block.size)) =
      .ok ((done ++ [h.block]).flatMap Block.bytes ++ tail) := by
    have heq : A ++ word32 st.page ++ (h₂ ++ cur.flatMap entry ++ h.block.padding ++ tail) =
        (A ++ word32 st.page) ++ h₂ ++ (cur.flatMap entry ++ h.block.padding ++ tail) := by
      simp only [List.append_assoc]
    have hpos : st.startofblock + 4 = (A ++ word32 st.page).length := by
      rw [List.length_append, length_word32, h.startofblock]
    rw [heq, hpos, poke_middle _ (by rw [length_word32, hl₂]), List.flatMap_append, List.flatMap_singleton]
    show _ = Except.ok (A ++ (word32 st.page ++ word32 (UInt32.ofNat h.block.size) ++ cur.flatMap entry ++
      h.block.padding) ++ tail)
    simp only [List.append_assoc]
  have hend : pad st.data = ((done ++ [h.block]).flatMap Block.bytes).length := by
    rw [List.flatMap_append, List.flatMap_singleton, List.length_append, Block.length_bytes, h.pad_data,
      h.startofblock]
  refine ⟨_, by rw [closeBlock, hpadded, outcome_ok_bind, hfirst, outcome_ok_bind, hsecond]; rfl, ⟨⟨tail, rfl⟩,
    hend, ?_⟩, ?_, rfl⟩
  · show st.nrelocs = _
    rw [h.nrelocs, List.flatMap_append, List.flatMap_singleton]
    rfl
  · show ((done ++ [h.block]).flatMap Block.bytes ++ tail).length = _
    have hsize : h.block.size = 8 + 2 * cur.length + 2 * (cur.length % 2) := rfl
    have hpadding : h.block.padding.length = 2 * (cur.length % 2) := List.length_replicate
    rw [← hlen, List.flatMap_append, List.flatMap_singleton, ← hA]
    simp only [List.length_append, Block.length_bytes, length_entries, hl₁, hl₂]
    omega

theorem Closed.open (h : Closed st done) (r : UInt32) (hroom : st.data + 8 + 2 ≤ st.mem.length) :
    ∃ mem, poke st.mem (st.data + 8) (entry r) = .ok mem ∧ mem.length = st.mem.length ∧
      Open { st with
        mem := mem
        data := st.data + 8 + 2
        startofblock := st.data
        page := pageOf r
        pagesize := 8 + 2
        nrelocs := st.nrelocs + 1 } done [r] := by
  obtain ⟨tail, hmem⟩ := h.mem
  have hdata := h.data
  rw [hmem, List.length_append] at hroom
  have hhead : (tail.take 8).length = 8 := List.length_take_of_le (by omega)
  have hpos : st.data + 8 = (done.flatMap Block.bytes ++ tail.take 8).length := by
    rw [List.length_append, hhead, hdata]
  have hsplit : st.mem = (done.flatMap Block.bytes ++ tail.take 8) ++ tail.drop 8 := by
    rw [List.append_assoc, List.take_append_drop, hmem]
  have hpoke : poke st.mem (st.data + 8) (entry r) =
      .ok (done.flatMap Block.bytes ++ tail.take 8 ++ entry r ++ (tail.drop 8).drop (entry r).length) := by
    rw [hsplit, hpos]
    exact poke_front (by rw [length_entry, List.length_drop]; omega)
  refine ⟨_, hpoke, ?_, ⟨tail.take 8, (tail.drop 8).drop 2, hhead, ?_⟩, hdata, rfl, rfl, ?_, ?_, ?_⟩
  · rw [hmem]
    simp only [List.length_append, length_entry, List.length_drop, hhead]
    omega
  · rw [length_entry, List.flatMap_singleton]
    simp only [List.append_assoc]
  · intro x hx
    rw [List.mem_singleton.mp hx]
  · exact List.cons_ne_nil _ _
  · show st.nrelocs + 1 = _
    rw [h.nrelocs, List.length_append, List.length_singleton]

theorem Open.push (h : Open st done cur) {r : UInt32} (hpage : st.page = pageOf r)
    (hroom : st.data + 2 ≤ st.mem.length) :
    ∃ mem, poke st.mem st.data (entry r) = .ok mem ∧ mem.length = st.mem.length ∧
      Open { st with
        mem := mem
        data := st.data + 2
        pagesize := st.pagesize + 2
        nrelocs := st.nrelocs + 1 } done (cur ++ [r]) := by
  obtain ⟨head, tail, hhead, hmem⟩ := h.mem
  have hdata := h.data
  have hpagesize := h.pagesize
  have hpos : st.data = (done.flatMap Block.bytes ++ (head ++ cur.flatMap entry)).length := by
    rw [List.length_append, List.length_append, hhead, length_entries, hdata, h.startofblock]
    omega
  have hlen : st.mem.length = st.data + tail.length := by
    rw [hpos, hmem, List.length_append]
  have hcur : (cur ++ [r]).length = cur.length + 1 := List.length_append
  have hpoke : poke st.mem st.data (entry r) = .ok (done.flatMap Block.bytes ++ (head ++ cur.flatMap entry) ++
      entry r ++ tail.drop (entry r).length) := by
    rw [hmem, hpos]
    exact poke_front (by rw [length_entry]; omega)
  refine ⟨_, hpoke, ?_, ⟨head, tail.drop 2, hhead, ?_⟩, h.startofblock, ?_, ?_, ?_, ?_, ?_⟩
  · rw [List.length_append, List.length_append, ← hpos, length_entry, List.length_drop]
    omega
  · rw [length_entry, List.flatMap_append, List.flatMap_singleton]
    simp only [List.append_assoc]
  · show st.data + 2 = st.startofblock + 8 + 2 * (cur ++ [r]).length
    omega
  · show st.pagesize + 2 = 8 + 2 * (cur ++ [r]).length
    omega
  · intro x hx
    rcases List.mem_append.mp hx with hx | hx
    · exact h.onPage x hx
    · rw [List.mem_singleton.mp hx]
      exact hpage.symm
  · simp
  · show st.nrelocs + 1 = (done.flatMap Block.sites ++ (cur ++ [r])).length
    rw [h.nrelocs, List.length_append, List.length_append, hcur, Nat.add_assoc]

theorem Closed.writeSite {st₀ : WriteState} (r : UInt32) (hpage : st₀.page ≠ pageOf r)
    (hclose : closeBlock st₀ = .ok st) (h : Closed st done) (hroom : st.data + 8 + 2 ≤ st.mem.length) :
    ∃ st', writeSite r st₀ = .ok st' ∧ Open st' done [r] ∧ st'.mem.length = st.mem.length ∧
      st'.data = st.data + 8 + 2 ∧ st'.page = pageOf r := by
  obtain ⟨mem, hpoke, hlen, hopen⟩ := h.open r hroom
  refine ⟨_, ?_, hopen, hlen, rfl, rfl⟩
  rw [Petran.writeSite, turnPage, if_pos hpage, hclose]
  simp only [outcome_ok_bind, hpoke]

/-- One site more: it joins the current block, or the block is closed and the site begins another. -/
theorem Open.writeSite (h : Open st done cur) (r : UInt32) {rs : List UInt32}
    (hroom : st.mem.length = sizes st.data st.page (r :: rs)) :
    ∃ st' done' cur', writeSite r st = .ok st' ∧ Open st' done' cur' ∧
      st'.mem.length = st.mem.length ∧ st'.mem.length = sizes st'.data st'.page rs ∧
      done'.flatMap Block.sites ++ cur' = done.flatMap Block.sites ++ cur ++ [r] := by
  rw [sizes] at hroom
  by_cases hpage : st.page = pageOf r
  · rw [if_neg (not_not.mpr hpage)] at hroom
    have hle := (le_pad _).trans (le_sizes rs (st.data + 2) st.page)
    obtain ⟨mem, hpoke, hlen, hopen⟩ := h.push hpage (by omega)
    refine ⟨_, done, cur ++ [r], ?_, hopen, hlen, hlen.trans hroom, (List.append_assoc _ _ _).symm⟩
    rw [Petran.writeSite, turnPage, if_neg (not_not.mpr hpage)]
    simp only [outcome_ok_bind, hpoke]
  · rw [if_pos hpage] at hroom
    have hle := (le_pad _).trans (le_sizes rs (pad st.data + 8 + 2) (pageOf r))
    obtain ⟨st₁, hclose, hclosed, hlen₁, hdata₁⟩ := h.close (by omega)
    obtain ⟨st', hsite, hopen, hlen, hdata, hpage'⟩ := hclosed.writeSite r hpage hclose (by omega)
    refine ⟨st', done ++ [h.block], [r], hsite, hopen, hlen.trans hlen₁, ?_, ?_⟩
    · rw [hlen, hlen₁, hroom, hdata, hdata₁, hpage']
    · rw [List.flatMap_append, List.flatMap_singleton]
      rfl

theorem Open.writeLoop : ∀ (rs : List UInt32) {st : WriteState} {done : List Block} {cur : List UInt32},
    Open st done cur → st.mem.length = sizes st.data st.page rs →
    ∃ st' done' cur', rs.foldlM (fun st r => Petran.writeSite r st) st = .ok st' ∧ Open st' done' cur' ∧
      st'.mem.length = st.mem.length ∧ st'.mem.length = pad st'.data ∧
      done'.flatMap Block.sites ++ cur' = done.flatMap Block.sites ++ cur ++ rs
  | [], st, done, cur, h, hroom => ⟨st, done, cur, rfl, h, rfl, hroom, (List.append_nil _).symm⟩
  | r :: rs, st, done, cur, h, hroom => by
    obtain ⟨st₁, done₁, cur₁, hsite, hopen, hlen₁, hroom₁, hsites₁⟩ := h.writeSite r hroom
    obtain ⟨st', done', cur', hloop, hopen', hlen', hroom', hsites'⟩ := Open.writeLoop rs hopen hroom₁
    refine ⟨st', done', cur', ?_, hopen', hlen'.trans hlen₁, hroom', ?_⟩
    · rw [List.foldlM_cons, hsite]
      exact hloop
    · rw [hsites', hsites₁, List.append_assoc _ [r] rs]
      rfl

theorem closeBlock_start {mem : Bytes} (h : 8 ≤ mem.length) :
    ∃ st, closeBlock (.start mem) = .ok st ∧ Closed st [] ∧ st.mem.length = mem.length := by
  have hfirst := @poke_front [] mem (word32 0xffffffff) (by rw [length_word32]; omega)
  have hsecond := @poke_front (word32 0xffffffff) (mem.drop 4) (word32 (UInt32.ofNat 8))
    (by rw [length_word32, List.length_drop]; omega)
  rw [List.nil_append, List.nil_append, List.length_nil, length_word32] at hfirst
  rw [length_word32, length_word32] at hsecond
  refine ⟨⟨word32 0xffffffff ++ word32 (UInt32.ofNat 8) ++ (mem.drop 4).drop 4, 0, 0, 0xffffffff, 8, 0⟩, ?_,
    ⟨⟨_, rfl⟩, rfl, rfl⟩, ?_⟩
  · have hpad : padBlock (.start mem) = .ok (.start mem) := if_neg (show ¬ 8 % 4 ≠ 0 by decide)
    rw [closeBlock, hpad, outcome_ok_bind]
    show (poke mem 0 (word32 0xffffffff) >>= fun mem => poke mem 4 (word32 (UInt32.ofNat 8)) >>= fun mem =>
      .ok (⟨mem, 0, 0, 0xffffffff, 8, 0⟩ : WriteState)) = _
    rw [hfirst, outcome_ok_bind, hsecond, outcome_ok_bind]
  · simp only [List.length_append, length_word32, List.length_drop]
    omega

/-- The blocks that are written hold the wanted sites in order. -/
theorem writeBlocks_eq {wanted : Section → Bool} {sites : List Site} {mem : Bytes}
    (hne : sitesIn wanted sites ≠ []) (hmem : mem.length = sizeOfRelocs wanted sites) :
    ∃ (st : WriteState) (blocks : List Block), writeBlocks wanted sites mem = .ok st ∧ st.mem = blocks.flatMap Block.bytes ∧
      blocks.flatMap Block.sites = sitesIn wanted sites ∧ st.data = mem.length ∧ st.mem.length = mem.length ∧
      st.nrelocs = (sitesIn wanted sites).length := by
  rw [sizeOfRelocs, sizeLoop_eq] at hmem
  obtain ⟨r, rs, hrs⟩ := List.exists_cons_of_ne_nil hne
  have hpage : (0xffffffff : UInt32) ≠ pageOf r := by
    intro h
    have hand : (0xffffffff : UInt32) &&& 0xfff = 0 := by
      rw [h, pageOf, UInt32.and_assoc]
      exact UInt32.and_zero
    exact absurd hand (by decide)
  have hsize : sizes 0 0xffffffff (r :: rs) = sizes (8 + 2) (pageOf r) rs := if_pos hpage
  rw [hrs, hsize] at hmem
  have hle := (le_pad _).trans (le_sizes rs (8 + 2) (pageOf r))
  obtain ⟨st₀, hstart, hclosed, hlen₀⟩ := @closeBlock_start mem (by omega)
  have hdata₀ := hclosed.data
  rw [List.flatMap_nil, List.length_nil] at hdata₀
  obtain ⟨st₁, hsite, hopen, hlen₁, hdata₁, hpage₁⟩ := hclosed.writeSite r hpage hstart (by omega)
  obtain ⟨st₂, done, cur, hloop, hopen₂, hlen₂, hroom, hsites⟩ := Open.writeLoop rs hopen
    (by rw [hlen₁, hlen₀, hmem, hdata₁, hdata₀, hpage₁])
  obtain ⟨st, hclose, hclosed', hlen, hdata⟩ := hopen₂.close hroom.ge
  have hall : (done ++ [hopen₂.block]).flatMap Block.sites = sitesIn wanted sites := by
    rw [List.flatMap_append, List.flatMap_singleton, hrs]
    exact hsites
  obtain ⟨tail, htail⟩ := hclosed'.mem
  have hnil : tail = [] := by
    have h := congrArg List.length htail
    rw [List.length_append, ← hclosed'.data, hlen, hdata, hroom] at h
    exact List.length_eq_zero_iff.mp (by omega)
  have htotal : st.mem.length = mem.length := by
    rw [hlen, hlen₂, hlen₁, hlen₀]
  refine ⟨st, done ++ [hopen₂.block], ?_, ?_, hall, ?_, htotal, ?_⟩
  · rw [writeBlocks, writeLoop_eq, hrs, List.foldlM_cons, hsite, outcome_ok_bind, hloop, outcome_ok_bind,
      hclose]
  · rw [htail, hnil, List.append_nil]
  · rw [← htotal, hlen, hdata, hroom]
  · rw [hclosed'.nrelocs, hall]

end

/-! ### The walk over what was written -/

theorem word32_eq (v : UInt32) : ∃ a b c d, word32 v = [a, b, c, d] ∧ ofLE [a, b, c, d] = v.toNat := by
  obtain ⟨a, b, c, d, h⟩ : ∃ a b c d, word32 v = [a, b, c, d] := ⟨_, _, _, _, rfl⟩
  refine ⟨a, b, c, d, h, ?_⟩
  rw [← h]
  exact ofLE_leBytes_of_lt v.toNat_lt

theorem tint_of_lt {n : ℕ} (h : n < 2 ^ 31) : tint n = n := by
  unfold tint
  rw [Nat.mod_eq_of_lt (by omega), if_pos h]
  omega

section
variable {S : Type} (visit : UInt32 → S → Outcome S)

theorem walkLoop_done {i : ℤ} (h : i ≤ 0) (size : ℤ) (page : UInt32) (relocs : Bytes) (s : S) :
    walkLoop visit i size page relocs s = .ok (s, relocs) := by
  unfold walkLoop
  rw [if_pos h]

theorem walkLoop_entries (page : UInt32) (rest : Bytes) : ∀ (rs : List UInt32) (i size : ℤ) (s : S),
    (∀ r ∈ rs, pageOf r = page) → rs.length ≤ i → 2 * rs.length ≤ size →
    walkLoop visit i size page (rs.flatMap entry ++ rest) s =
      rs.foldlM (fun s r => visit r s) s >>= fun s =>
        walkLoop visit (i - rs.length) (size - 2 * rs.length) page rest s
  | [], i, size, s, _, _, _ => by simp [outcome_ok_bind, pure, Except.pure]
  | r :: rs, i, size, s, hpage, hi, hsize => by
    rw [List.length_cons, Nat.cast_succ] at hi hsize
    obtain ⟨a, b, hab, hne, hoff⟩ := entry_eq r
    have hsite : page + (UInt32.ofNat (ofLE [a, b]) &&& 0xfff) = r := by
      rw [hoff, ← hpage r (List.mem_cons_self ..), pageOf_add_offset]
    rw [List.flatMap_cons, hab, List.append_assoc]
    show walkLoop visit i size page (a :: b :: (rs.flatMap entry ++ rest)) s = _
    rw [walkLoop, if_neg (by omega), if_pos (by omega)]
    simp only [if_pos hne, hsite, List.foldlM_cons, bind_assoc]
    congr 1
    funext s'
    rw [walkLoop_entries page rest rs (i - 1) (size - 2) s' (fun x hx => hpage x (List.mem_cons_of_mem _ hx))
      (by omega) (by omega), List.length_cons, Nat.cast_succ]
    congr 1
    funext s''
    congr 1
    · omega
    · omega

theorem walkLoop_head (b : Block) (hsize : b.size < 2 ^ 31) {i : ℤ} (hi : 0 < i) (page : UInt32) (rest : Bytes)
    (s : S) : walkLoop visit i 0 page (b.bytes ++ rest) s =
      walkLoop visit i (b.size - 8) b.page (b.sites.flatMap entry ++ (b.padding ++ rest)) s := by
  obtain ⟨p₁, p₂, p₃, p₄, hpage, hpageval⟩ := word32_eq b.page
  obtain ⟨z₁, z₂, z₃, z₄, hsz, hszval⟩ := word32_eq (UInt32.ofNat b.size)
  have hnat : (UInt32.ofNat b.size).toNat = b.size := by
    rw [UInt32.toNat_ofNat', Nat.mod_eq_of_lt (by omega)]
  rw [Block.bytes, hpage, hsz]
  simp only [List.append_assoc]
  show walkLoop visit i 0 page (p₁ :: p₂ :: p₃ :: p₄ :: z₁ :: z₂ :: z₃ :: z₄ ::
    (b.sites.flatMap entry ++ (b.padding ++ rest))) s = _
  rw [walkLoop, if_neg (by omega), if_neg (by omega)]
  simp only [hpageval, hszval, hnat, tint_of_lt hsize, UInt32.ofNat_toNat]

theorem walkLoop_padding (b : Block) {i : ℤ} (hi : 0 < i) (page : UInt32) (rest : Bytes) (s : S) :
    walkLoop visit i (2 * (b.sites.length % 2 : ℕ)) page (b.padding ++ rest) s =
      walkLoop visit i 0 page rest s := by
  rcases Nat.mod_two_eq_zero_or_one b.sites.length with h | h
  · rw [Block.padding, h]
    rfl
  · rw [Block.padding, h]
    show walkLoop visit i 2 page (0 :: 0 :: rest) s = _
    rw [walkLoop, if_neg (by omega), if_pos (by omega)]
    simp only [ne_eq, if_neg (show ¬ ¬ UInt32.ofNat (ofLE [0, 0]) = 0 by decide)]
    rfl

/-- What stays unread behind the last site. -/
def lastPadding (blocks : List Block) : Bytes := (blocks.getLast?.map Block.padding).getD []

/-- The walk visits the sites of all blocks. -/
theorem walkLoop_blocks : ∀ (blocks : List Block) (page : UInt32) (s : S),
    (∀ b ∈ blocks, b.size < 2 ^ 31) →
    walkLoop visit (blocks.flatMap Block.sites).length 0 page (blocks.flatMap Block.bytes) s =
      (blocks.flatMap Block.sites).foldlM (fun s r => visit r s) s >>= fun s => .ok (s, lastPadding blocks)
  | [], page, s, _ => walkLoop_done visit le_rfl 0 page [] s
  | b :: blocks, page, s, hsize => by
    have hpos : 0 < b.sites.length := List.length_pos_of_ne_nil b.nonempty
    have hb : b.size = 8 + 2 * b.sites.length + 2 * (b.sites.length % 2) := rfl
    have hlen : (((b :: blocks).flatMap Block.sites).length : ℤ) =
        b.sites.length + (blocks.flatMap Block.sites).length := by
      rw [List.flatMap_cons, List.length_append, Nat.cast_add]
    rw [hlen, List.flatMap_cons, List.flatMap_cons, List.foldlM_append, bind_assoc,
      walkLoop_head visit b (hsize b (List.mem_cons_self ..)) (by omega),
      walkLoop_entries visit b.page _ b.sites _ _ s b.onPage (by omega) (by omega)]
    congr 1
    funext s'
    have hleft : (b.size : ℤ) - 8 - 2 * b.sites.length = 2 * (b.sites.length % 2 : ℕ) := by omega
    rw [add_sub_cancel_left, hleft]
    rcases blocks with _ | ⟨b', blocks⟩
    · rw [List.flatMap_nil, List.flatMap_nil, List.append_nil]
      exact walkLoop_done visit le_rfl _ _ _ _
    · have hrest : 0 < ((b' :: blocks).flatMap Block.sites).length := by
        have := List.length_pos_of_ne_nil b'.nonempty
        rw [List.flatMap_cons, List.length_append]
        omega
      rw [walkLoop_padding visit b (by omega), walkLoop_blocks (b' :: blocks) b.page s'
        fun x hx => hsize x (List.mem_cons_of_mem _ hx)]
      rfl

end

/-! ### The sections describe their sites -/

/-- A relocation section for the sites `rs`: head, blocks and walk. -/
structure Describes (aRelocs : Bytes) (rs : List UInt32) : Prop where
  iSize : ofLE (readAt aRelocs 0 4) + 8 = aRelocs.length
  iNumberOfRelocs : ofLE (readAt aRelocs 4 4) = rs.length
  blocks : ∃ blocks : List Block, aRelocs.drop 8 = blocks.flatMap Block.bytes ∧
    blocks.flatMap Block.sites = rs ∧ (∀ b ∈ blocks, b.bytes.length = b.size ∧ b.size % 4 = 0) ∧
    ∀ {S : Type} (visit : UInt32 → S → Outcome S) (s : S), walkSection visit aRelocs s =
      rs.foldlM (fun s r => visit r s) s >>= fun s => .ok (s, lastPadding blocks)

theorem Block.size_le {b : Block} {blocks : List Block} (h : b ∈ blocks) :
    b.size ≤ (blocks.flatMap Block.bytes).length := by
  obtain ⟨before, behind, rfl⟩ := List.append_of_mem h
  rw [List.flatMap_append, List.flatMap_cons, List.length_append, List.length_append, Block.length_bytes]
  omega

theorem describes_blocks {blocks : List Block} (hlen : (blocks.flatMap Block.bytes).length < 2 ^ 31)
    (hcount : (blocks.flatMap Block.sites).length < 2 ^ 31) :
    Describes (word32 (UInt32.ofNat (blocks.flatMap Block.bytes).length) ++
      word32 (UInt32.ofNat (blocks.flatMap Block.sites).length) ++ blocks.flatMap Block.bytes)
      (blocks.flatMap Block.sites) := by
  set n := (blocks.flatMap Block.bytes).length with hn
  set k := (blocks.flatMap Block.sites).length with hk
  obtain ⟨a, b, c, d, hsize, hsizeval⟩ := word32_eq (UInt32.ofNat n)
  obtain ⟨e, f, g, h, hnum, hnumval⟩ := word32_eq (UInt32.ofNat k)
  have hnn : (UInt32.ofNat n).toNat = n := by
    rw [UInt32.toNat_ofNat', Nat.mod_eq_of_lt (by omega)]
  have hkk : (UInt32.ofNat k).toNat = k := by
    rw [UInt32.toNat_ofNat', Nat.mod_eq_of_lt (by omega)]
  rw [hsize, hnum]
  have hread : readAt ([a, b, c, d] ++ [e, f, g, h] ++ blocks.flatMap Block.bytes) 4 4 = [e, f, g, h] := rfl
  refine ⟨?_, ?_, blocks, rfl, rfl, fun x _ => ⟨x.length_bytes, x.size_mod⟩, ?_⟩
  · show ofLE [a, b, c, d] + 8 = _
    rw [hsizeval, hnn, List.length_append, ← hn]
    exact Nat.add_comm ..
  · rw [hread, hnumval, hkk]
  · intro S visit s
    have hlong : ¬ ([a, b, c, d] ++ [e, f, g, h] ++ blocks.flatMap Block.bytes).length < 8 := by
      rw [List.length_append]
      exact Nat.not_lt.mpr (Nat.le_add_right 8 _)
    rw [walkSection, if_neg hlong, hread, hnumval, hkk, tint_of_lt hcount]
    exact walkLoop_blocks visit blocks 0 s fun x hx => Nat.lt_of_le_of_lt (Block.size_le hx) hlen

/-- What comes of the sites in the wanted sections: no section for none, else one that describes them and
whose bytes behind the head are all written. -/
def Exact (heap : Heap) (wanted : Section → Bool) (sites : List Site) (created : Outcome (Option Bytes × ℕ)) :
    Prop :=
  if sitesIn wanted sites = [] then created = .ok (none, 0)
  else ∃ aRelocs st, created = .ok (some aRelocs, aRelocs.length) ∧ Describes aRelocs (sitesIn wanted sites) ∧
    writeBlocks wanted sites ((heap.new aRelocs.length).drop 8) = .ok st ∧ st.mem = aRelocs.drop 8 ∧
    st.data + 8 = aRelocs.length

theorem le_sizes_length (rs : List UInt32) : ∀ bytecount page,
    bytecount + 2 * rs.length ≤ sizes bytecount page rs := by
  induction rs with
  | nil => exact fun bytecount _ => le_pad bytecount
  | cons r rs ih =>
    intro bytecount page
    rw [sizes, List.length_cons]
    split
    · have h₁ := ih (pad bytecount + 8 + 2) (pageOf r)
      have h₂ := le_pad bytecount
      omega
    · have h := ih (bytecount + 2) page
      omega

/-- The section lists the wanted sites, block by block. -/
theorem exact_createRelocs (heap : Heap) (wanted : Section → Bool) (sites : List Site)
    (hfits : sizeOfRelocs wanted sites + 8 < 2 ^ 31) :
    Exact heap wanted sites (createRelocs heap wanted sites) := by
  have hcount : 2 * (sitesIn wanted sites).length ≤ sizeOfRelocs wanted sites := by
    rw [sizeOfRelocs, sizeLoop_eq]
    exact (Nat.zero_add _).symm.trans_le (le_sizes_length _ _ _)
  rw [Exact]
  split
  case isTrue hnone =>
    have hzero : sizeOfRelocs wanted sites = 0 := by
      rw [sizeOfRelocs, sizeLoop_eq, hnone]
      rfl
    rw [createRelocs, hzero]
    rfl
  case isFalse hne =>
    have hpos := List.length_pos_of_ne_nil hne
    have hmem : ((heap.new (sizeOfRelocs wanted sites + 8)).drop 8).length = sizeOfRelocs wanted sites := by
      rw [List.length_drop, heap.length_new]
      omega
    obtain ⟨st, blocks, hwritten, hbytes, hsites, hdata, hlen, hnrelocs⟩ := writeBlocks_eq hne hmem
    have htotal : (blocks.flatMap Block.bytes).length = sizeOfRelocs wanted sites := by
      rw [← hbytes, hlen, hmem]
    have hcreated : createRelocs heap wanted sites =
        .ok (some (word32 (UInt32.ofNat (blocks.flatMap Block.bytes).length) ++
          word32 (UInt32.ofNat (blocks.flatMap Block.sites).length) ++ blocks.flatMap Block.bytes),
          sizeOfRelocs wanted sites + 8) := by
      unfold createRelocs
      simp only
      rw [if_neg (by omega), if_neg (by omega), hwritten, outcome_ok_bind, hnrelocs, hbytes, htotal, hsites]
    have haRelocs : (word32 (UInt32.ofNat (blocks.flatMap Block.bytes).length) ++
        word32 (UInt32.ofNat (blocks.flatMap Block.sites).length) ++ blocks.flatMap Block.bytes).length =
        sizeOfRelocs wanted sites + 8 := by
      rw [List.length_append, List.length_append, length_word32, length_word32, htotal]
      omega
    refine ⟨_, st, by rw [hcreated, haRelocs], ?_, by rw [haRelocs, hwritten], ?_, ?_⟩
    · have h := @describes_blocks blocks (by omega) (by rw [hsites]; omega)
      rw [hsites] at h ⊢
      exact h
    · rw [hbytes]
      rfl
    · rw [haRelocs, hdata, hmem]

/-- **The relocation sections describe their sites.**  The memory counted for a section is written in whole
blocks of four bytes, its size and count are exact, and the walk visits the offsets of the wanted sites in the
order of the list; it leaves the padding of the last block, if there is one, unread. -/
theorem createRelocs_exact (heap : Heap) (sites : List Site) (hcode : sizeOfCodeRelocs sites + 8 < 2 ^ 31)
    (hdata : sizeOfDataRelocs sites + 8 < 2 ^ 31) :
    Exact heap isCode sites (CreateCodeRelocs heap sites) ∧
      Exact heap isData sites (CreateDataRelocs heap sites) :=
  ⟨exact_createRelocs heap isCode sites hcode, exact_createRelocs heap isData sites hdata⟩

/-- Sites of both kinds, mixed, on two pages. -/
def sampleSites : List Site :=
  [⟨0x1004, .KTextSection⟩, ⟨0x10, .KDataSection⟩, ⟨0x1004, .KConstSection⟩, ⟨0x2000, .KCrtSection⟩,
    ⟨0x14, .KDataSection⟩, ⟨0x18, .KBssSection⟩]

theorem createRelocs_exact_sample : Exact zeroHeap isCode sampleSites (CreateCodeRelocs zeroHeap sampleSites) ∧
    Exact zeroHeap isData sampleSites (CreateDataRelocs zeroHeap sampleSites) :=
  createRelocs_exact zeroHeap sampleSites (by decide +kernel) (by decide +kernel)

/-- The section of one site ends in a zero entry that the walk does not reach. -/
theorem relocateSection_leaves_padding : ∃ aRelocs s,
    CreateCodeRelocs zeroHeap [⟨0, .KTextSection⟩] = .ok (some aRelocs, aRelocs.length) ∧
      RelocateSection ⟨0, 4, 4, 0, 0x8000, 0, 0⟩ aRelocs ⟨[1, 0, 0, 0], []⟩ = .ok (s, [0, 0]) :=
  ⟨[12, 0, 0, 0, 1, 0, 0, 0] ++ [0, 0, 0, 0, 12, 0, 0, 0] ++ [0, 0x30, 0, 0], ⟨[1, 0x80, 0, 0], []⟩,
    by decide +kernel, by decide +kernel⟩

end GnuPoc.Petran
