import GnuPoc.Petran.PeFile

/-!
# GnuPoc.Petran.RelocBlocks — the `.reloc` section of a PE file (`pe_file.cpp`)

`NumberOfRelocs` and `GetRelocs` walk the same page blocks.  The one goes to the next block by the size of the block,
the other by the entries it has taken; both trust the size.  The walks are traced: the offsets of the block headers,
what is read, and the sites that are counted or written.
-/

namespace GnuPoc.Petran

open GnuPoc.Lib

/-- What a walk does. -/
structure RelocRun where
  headers : List ℤ
  reads : List (ℤ × ℕ)
  sites : List Site

namespace RelocRun

def nothing : RelocRun := ⟨[], [], []⟩

def append (r r' : RelocRun) : RelocRun := ⟨r.headers ++ r'.headers, r.reads ++ r'.reads, r.sites ++ r'.sites⟩

end RelocRun

/-- `*p`, `n` bytes at an offset of the section. -/
def peekAt (data : Bytes) (p : ℤ) (n : ℕ) : Outcome ℕ :=
  if 0 ≤ p ∧ p + n ≤ data.length then .ok (ofLE (readAt data p.toNat n)) else .error .undefined

/-- The sections whose relocations are kept. -/
def isRelocated : Section → Bool
  | .KTextSection | .KConstSection | .KDataSection | .KCrtSection => true
  | _ => false

/-- `(pp&0xf000)>>12 == IMAGE_REL_BASED_HIGHLOW`, as `NumberOfRelocs` has it. -/
def isHighLow (pp : UInt16) : Bool := (pp &&& 0xf000) >>> 12 = 3

/-- `(offset&0xf000) == 0x3000`, as `GetRelocs` has it. -/
def hasHighLow (offset : UInt16) : Bool := offset &&& 0xf000 = 0x3000

/-- The site of an entry, when it lies in one of these sections. -/
def PEFile.siteOf (f : PEFile) (highLow : UInt16 → Bool) (page : UInt32) (pp : UInt16) : Option Site :=
  if highLow pp then
    let va := page + (pp &&& 0xfff).toUInt32
    ((f.FindSectionByVa va).filter isRelocated).map fun s => ⟨va, s⟩
  else none

/-- `while (blocksize>0) { ... blocksize-=2; }`: the number of turns. -/
def entryCount (blocksize : ℤ) : ℕ := ((blocksize + 1) / 2).toNat

def PEFile.entries (f : PEFile) (highLow : UInt16 → Bool) (data : Bytes) (page : UInt32) : ℕ → ℤ → Outcome RelocRun
  | 0, _ => .ok .nothing
  | n + 1, p => do
    let pp ← peekAt data p 2
    let rest ← f.entries highLow data page n (p + 2)
    .ok (RelocRun.append ⟨[], [(p, 2)], (f.siteOf highLow page (UInt16.ofNat pp)).toList⟩ rest)

/-- The page and the size of a block are read. -/
def blockHeader (relocs : ℤ) : RelocRun := ⟨[relocs], [(relocs, 4), (relocs + 4, 4)], []⟩

/-- The loop over the blocks; `advance` is how far the pointer has gone behind a block of a size.  An overflow of `size`
or of `blocksize` is undefined. -/
def PEFile.blocks (f : PEFile) (highLow : UInt16 → Bool) (advance : ℤ → ℤ) (data : Bytes) :
    ℕ → ℤ → ℤ → Outcome RelocRun
  | 0, _, _ => .error .outOfFuel
  | fuel + 1, relocs, size =>
    if 0 < size then do
      let page ← peekAt data relocs 4
      let blocksize ← peekAt data (relocs + 4) 4
      if tint blocksize = 0 then .ok (blockHeader relocs)
      else if 2147483648 ≤ size - tint blocksize ∨ tint blocksize - 8 < -2147483648 then .error .undefined
      else do
        let taken ← f.entries highLow data (UInt32.ofNat page) (entryCount (tint blocksize - 8)) (relocs + 8)
        let rest ← f.blocks highLow advance data fuel (relocs + advance (tint blocksize)) (size - tint blocksize)
        .ok ((blockHeader relocs).append (taken.append rest))
    else .ok .nothing

/-- The sites that are counted. -/
def PEFile.NumberOfRelocs (f : PEFile) (s : PeSection) (fuel : ℕ) : Outcome RelocRun :=
  f.blocks isHighLow id s.data fuel 0 (tint s.VirtualSize.toNat)

/-- The sites that are written. -/
def PEFile.GetRelocs (f : PEFile) (s : PeSection) (fuel : ℕ) : Outcome RelocRun :=
  f.blocks hasHighLow (fun size => 8 + 2 * entryCount (size - 8)) s.data fuel 0 (tint s.VirtualSize.toNat)

/-! ### The blocks of the file -/

/-- The size of the block at an offset, as a `TInt`. -/
def blockSize (data : Bytes) (p : ℕ) : ℤ := tint (ofLE (readAt data (p + 4) 4))

/-- The blocks one behind the other, up to the end of the section or to a block of size zero. -/
inductive PageBlocks (data : Bytes) (size : ℕ) : ℕ → List ℤ → Prop
  | done {p : ℕ} (h : size ≤ p) : PageBlocks data size p []
  | last {p : ℕ} (h : p < size) (hzero : blockSize data p = 0) : PageBlocks data size p [(p : ℤ)]
  | block {p n : ℕ} {ps : List ℤ} (h : p < size) (hsize : blockSize data p = n) (hpos : 0 < n)
      (rest : PageBlocks data size (p + n) ps) : PageBlocks data size p ((p : ℤ) :: ps)

/-- The sites of the entries inside of a block. -/
def PEFile.sitesOfBlock (f : PEFile) (data : Bytes) (p : ℤ) : List Site :=
  (List.range ((blockSize data p.toNat - 8) / 2).toNat).filterMap fun k =>
    f.siteOf hasHighLow (UInt32.ofNat (ofLE (readAt data p.toNat 4)))
      (UInt16.ofNat (ofLE (readAt data (p.toNat + 8 + 2 * k) 2)))

/-- Only bytes of the section are read, and of these only the first `VirtualSize`. -/
def ReadsInside (s : PeSection) (reads : List (ℤ × ℕ)) : Prop :=
  ∀ r ∈ reads, 0 ≤ r.1 ∧ r.1 + r.2 ≤ s.VirtualSize.toNat

/-- Both functions end, read inside of the section, and take just the sites of its blocks, in their order. -/
def RelocsAgree (f : PEFile) (s : PeSection) : Prop :=
  ∃ fuel counted written ps, f.NumberOfRelocs s fuel = .ok counted ∧ f.GetRelocs s fuel = .ok written ∧
    PageBlocks s.data s.VirtualSize.toNat 0 ps ∧ counted.headers = ps ∧ written.headers = ps ∧
    ReadsInside s counted.reads ∧ ReadsInside s written.reads ∧
    counted.sites = ps.flatMap (f.sitesOfBlock s.data) ∧ written.sites = counted.sites

/-- Every block has an even size of at least its header, and ends inside of the section, up to a block of size zero. -/
inductive BlocksFit (data : Bytes) (size : ℕ) : ℕ → Prop
  | done : BlocksFit data size size
  | last {p : ℕ} (h : p + 8 ≤ size) (hdata : p + 8 ≤ data.length) (hzero : blockSize data p = 0) : BlocksFit data size p
  | block {p n : ℕ} (h : p + (8 + 2 * n) ≤ size) (hdata : p + (8 + 2 * n) ≤ data.length)
      (hsize : blockSize data p = (8 + 2 * n : ℕ)) (rest : BlocksFit data size (p + (8 + 2 * n))) : BlocksFit data size p

/-! ### The type of an entry -/

theorem hasHighLow_eq : hasHighLow = isHighLow := by
  funext pp
  have hlow : (pp &&& 0xf000).toNat % 4096 = 0 := by
    have hzero : (pp &&& 0xf000) &&& 0xfff = 0 := by
      have hmask : (0xf000 : UInt16) &&& 0xfff = 0 := by decide
      rw [UInt16.and_assoc, hmask, UInt16.and_zero]
    have hnat := congrArg UInt16.toNat hzero
    rw [UInt16.toNat_and] at hnat
    exact (Nat.and_two_pow_sub_one_eq_mod _ 12).symm.trans hnat
  rw [hasHighLow, isHighLow, decide_eq_decide, ← UInt16.toNat_inj, ← UInt16.toNat_inj, UInt16.toNat_shiftRight]
  show _ = 12288 ↔ (pp &&& 0xf000).toNat >>> 12 = 3
  rw [Nat.shiftRight_eq_div_pow]
  omega

theorem entryCount_even (n : ℕ) : entryCount (((8 + 2 * n : ℕ) : ℤ) - 8) = n := by
  rw [entryCount]
  omega

/-! ### One block -/

variable {f : PEFile} {data : Bytes}

theorem peekAt_ok {p : ℕ} {n : ℕ} (h : p + n ≤ data.length) : peekAt data p n = .ok (ofLE (readAt data p n)) := by
  rw [peekAt, if_pos ⟨by omega, by omega⟩, Int.toNat_natCast]

theorem peekAt_inside {p : ℤ} {n v : ℕ} (h : peekAt data p n = .ok v) :
    0 ≤ p ∧ p + n ≤ data.length ∧ v = ofLE (readAt data p.toNat n) := by
  rw [peekAt] at h
  split at h
  · rename_i hin
    exact ⟨hin.1, hin.2, (Except.ok.inj h).symm⟩
  · cases h

theorem blockHeader_inside {p size : ℕ} (h : p + 8 ≤ size) :
    ∀ x ∈ (blockHeader p).reads, 0 ≤ x.1 ∧ x.1 + x.2 ≤ size := by
  intro x hx
  rcases List.mem_cons.mp hx with rfl | hx
  · dsimp only
    omega
  · obtain rfl := List.mem_singleton.mp hx
    dsimp only
    omega

variable {data : Bytes}

/-- The entries of a block are read one by one. -/
theorem entries_eq (f : PEFile) (highLow : UInt16 → Bool) (page : UInt32) {n p : ℕ} (h : p + 2 * n ≤ data.length) :
    ∃ r, f.entries highLow data page n p = .ok r ∧ r.headers = [] ∧
      (∀ x ∈ r.reads, 0 ≤ x.1 ∧ x.1 + x.2 ≤ ((p + 2 * n : ℕ) : ℤ)) ∧
      r.sites = (List.range n).filterMap fun k =>
        f.siteOf highLow page (UInt16.ofNat (ofLE (readAt data (p + 2 * k) 2))) := by
  induction n generalizing p with
  | zero => exact ⟨.nothing, rfl, rfl, fun x hx => absurd hx List.not_mem_nil, rfl⟩
  | succ n ih =>
    obtain ⟨rest, hrest, hheaders, hin, hsites⟩ := ih (p := p + 2) (by omega)
    have hnext : (p : ℤ) + 2 = ((p + 2 : ℕ) : ℤ) := (Nat.cast_add p 2).symm
    refine ⟨RelocRun.append
      ⟨[], [((p : ℤ), 2)], (f.siteOf highLow page (UInt16.ofNat (ofLE (readAt data p 2)))).toList⟩ rest, ?_,
      hheaders, ?_, ?_⟩
    · rw [PEFile.entries, peekAt_ok (by omega), outcome_ok_bind, hnext, hrest, outcome_ok_bind]
    · intro x hx
      rcases List.mem_cons.mp hx with rfl | hx
      · dsimp only
        omega
      · have hx' := hin x hx
        omega
    · have hshift : ∀ k, p + 2 + 2 * k = p + 2 * (k + 1) := by
        intro k
        omega
      rw [List.range_succ_eq_map, List.filterMap_cons, List.filterMap_map, Nat.mul_zero, Nat.add_zero]
      have hlater : rest.sites = (List.range n).filterMap
          ((fun k => f.siteOf highLow page (UInt16.ofNat (ofLE (readAt data (p + 2 * k) 2)))) ∘ Nat.succ) := by
        rw [hsites]
        refine congrArg (fun g => (List.range n).filterMap g) (funext fun k => ?_)
        rw [hshift k]
        rfl
      rw [← hlater]
      cases f.siteOf highLow page (UInt16.ofNat (ofLE (readAt data p 2))) with
      | none => rfl
      | some site => rfl

theorem entries_inside {highLow : UInt16 → Bool} {page : UInt32} {n : ℕ} {p : ℤ} {r : RelocRun}
    (h : f.entries highLow data page n p = .ok r) :
    r.headers = [] ∧ (0 < n → p + 2 * n ≤ data.length ∧ (p + 2 * n - 2, 2) ∈ r.reads) := by
  induction n generalizing p r with
  | zero =>
    obtain rfl := Except.ok.inj h
    exact ⟨rfl, fun hn => absurd hn (Nat.lt_irrefl 0)⟩
  | succ n ih =>
    rw [PEFile.entries] at h
    obtain ⟨pp, hpp, h⟩ := bind_eq_ok.mp h
    obtain ⟨rest, hrest, h⟩ := bind_eq_ok.mp h
    obtain rfl := Except.ok.inj h
    obtain ⟨hheaders, hlast⟩ := ih hrest
    refine ⟨hheaders, fun _ => ?_⟩
    rcases Nat.eq_zero_or_pos n with rfl | hn
    · have hin := peekAt_inside hpp
      refine ⟨by omega, List.mem_cons.mpr (.inl (Prod.ext ?_ rfl))⟩
      dsimp only
      omega
    · obtain ⟨hin, hmem⟩ := hlast hn
      refine ⟨by omega, List.mem_cons_of_mem _ ?_⟩
      have hsame : p + 2 * ((n + 1 : ℕ) : ℤ) - 2 = p + 2 + 2 * (n : ℤ) - 2 := by omega
      rw [hsame]
      exact hmem

/-! ### Both walks over blocks that fit -/

theorem blocks_header {highLow : UInt16 → Bool} {advance : ℤ → ℤ} {fuel p : ℕ} {size : ℤ}
    (hdata : p + 8 ≤ data.length) (hpos : 0 < size) :
    f.blocks highLow advance data (fuel + 1) p size =
      (if blockSize data p = 0 then .ok (blockHeader p)
      else if 2147483648 ≤ size - blockSize data p ∨ blockSize data p - 8 < -2147483648 then .error .undefined
      else do
        let taken ← f.entries highLow data (UInt32.ofNat (ofLE (readAt data p 4)))
          (entryCount (blockSize data p - 8)) (p + 8)
        let rest ← f.blocks highLow advance data fuel (p + advance (blockSize data p)) (size - blockSize data p)
        .ok ((blockHeader p).append (taken.append rest))) := by
  have hsizeAt : ((p : ℤ) + 4) = ((p + 4 : ℕ) : ℤ) := (Nat.cast_add p 4).symm
  rw [PEFile.blocks, if_pos hpos, peekAt_ok (by omega), outcome_ok_bind, hsizeAt, peekAt_ok (by omega), outcome_ok_bind]
  rfl

/-- The bytes between the end of the header of a block and the end of the block are its entries. -/
theorem sitesOfBlock_eq {p n : ℕ} (hsize : blockSize data p = (8 + 2 * n : ℕ)) (f : PEFile) :
    f.sitesOfBlock data p = (List.range n).filterMap fun k =>
      f.siteOf hasHighLow (UInt32.ofNat (ofLE (readAt data p 4))) (UInt16.ofNat (ofLE (readAt data (p + 8 + 2 * k) 2))) := by
  have hcount : ((((8 + 2 * n : ℕ) : ℤ) - 8) / 2).toNat = n := by omega
  rw [PEFile.sitesOfBlock, Int.toNat_natCast, hsize, hcount]

/-- Blocks that fit are walked to their end, inside of the data. -/
theorem blocks_run (f : PEFile) {size p : ℕ} (hsize : size < 2147483648) (h : BlocksFit data size p) :
    ∃ fuel ps, PageBlocks data size p ps ∧
      ∀ advance : ℤ → ℤ, (∀ n : ℕ, advance ((8 + 2 * n : ℕ) : ℤ) = (8 + 2 * n : ℕ)) →
      ∃ r, f.blocks hasHighLow advance data fuel p ((size : ℤ) - p) = .ok r ∧ r.headers = ps ∧
        (∀ x ∈ r.reads, 0 ≤ x.1 ∧ x.1 + x.2 ≤ size) ∧ r.sites = ps.flatMap (f.sitesOfBlock data) := by
  induction h with
  | done =>
    refine ⟨1, [], .done (Nat.le_refl _), fun advance _ => ⟨.nothing, ?_, rfl, ?_, rfl⟩⟩
    · rw [PEFile.blocks, if_neg (by omega)]
    · intro x hx
      exact absurd hx List.not_mem_nil
  | @last p hin hdata hzero =>
    refine ⟨1, [(p : ℤ)], .last (by omega) hzero, fun advance _ => ⟨blockHeader p, ?_, rfl, ?_, ?_⟩⟩
    · rw [blocks_header hdata (by omega), if_pos hzero]
    · exact blockHeader_inside hin
    · have hnone : f.sitesOfBlock data p = [] := by
        rw [PEFile.sitesOfBlock, Int.toNat_natCast, hzero]
        rfl
      rw [List.flatMap_singleton, hnone]
      rfl
  | @block p n hin hdata hblock _ ih =>
    obtain ⟨fuel, ps, hps, hrun⟩ := ih
    refine ⟨fuel + 1, (p : ℤ) :: ps, .block (by omega) hblock (by omega) hps, fun advance hadvance => ?_⟩
    obtain ⟨rest, hrest, hheaders, hreads, hsites⟩ := hrun advance hadvance
    have hend : p + 8 + 2 * n ≤ data.length := by omega
    obtain ⟨taken, htaken, hnone, hinside, htakes⟩ :=
      entries_eq f hasHighLow (UInt32.ofNat (ofLE (readAt data p 4))) hend
    refine ⟨(blockHeader p).append (taken.append rest), ?_, ?_, ?_, ?_⟩
    · have hhead : ((p : ℤ) + 8) = ((p + 8 : ℕ) : ℤ) := (Nat.cast_add p 8).symm
      have hnext : ((p : ℤ) + advance ((8 + 2 * n : ℕ) : ℤ)) = ((p + (8 + 2 * n) : ℕ) : ℤ) := by
        rw [hadvance n, ← Nat.cast_add]
      have hleft : ((size : ℤ) - p - ((8 + 2 * n : ℕ) : ℤ)) = (size : ℤ) - ((p + (8 + 2 * n) : ℕ) : ℤ) := by
        omega
      rw [blocks_header (by omega) (by omega), hblock, if_neg (by omega), if_neg (by omega), entryCount_even, hhead, htaken,
        outcome_ok_bind, hnext, hleft, hrest, outcome_ok_bind]
    · show (p : ℤ) :: (taken.headers ++ rest.headers) = _
      rw [hnone, hheaders]
      rfl
    · intro x hx
      rcases List.mem_append.mp hx with hx | hx
      · exact blockHeader_inside (by omega) x hx
      · rcases List.mem_append.mp hx with hx | hx
        · have hx' := hinside x hx
          omega
        · exact hreads x hx
    · rw [List.flatMap_cons, sitesOfBlock_eq hblock, ← hsites, ← htakes]
      rfl

/-! ### The blocks of two walks that agree -/

/-- What a walk does with bytes left: it takes a header, and stops there or goes on behind the entries. -/
theorem blocks_inv {highLow : UInt16 → Bool} {advance : ℤ → ℤ} {fuel p : ℕ} {size : ℤ} {r : RelocRun}
    (hpos : 0 < size) (h : f.blocks highLow advance data (fuel + 1) p size = .ok r) :
    p + 8 ≤ data.length ∧ (blockSize data p = 0 ∧ r = blockHeader p ∨ blockSize data p ≠ 0 ∧ ∃ page taken rest,
      f.entries highLow data page (entryCount (blockSize data p - 8)) (p + 8) = .ok taken ∧
      f.blocks highLow advance data fuel (p + advance (blockSize data p)) (size - blockSize data p) = .ok rest ∧
      r = (blockHeader p).append (taken.append rest)) := by
  have hdata : p + 8 ≤ data.length := by
    rw [PEFile.blocks, if_pos hpos] at h
    obtain ⟨_, _, h⟩ := bind_eq_ok.mp h
    obtain ⟨_, hpeek, _⟩ := bind_eq_ok.mp h
    have hin := (peekAt_inside hpeek).2.1
    omega
  refine ⟨hdata, ?_⟩
  rw [blocks_header hdata hpos] at h
  by_cases hzero : blockSize data p = 0
  · rw [if_pos hzero] at h
    exact .inl ⟨hzero, (Except.ok.inj h).symm⟩
  · rw [if_neg hzero] at h
    refine .inr ⟨hzero, ?_⟩
    split at h
    · cases h
    · obtain ⟨taken, htaken, h⟩ := bind_eq_ok.mp h
      obtain ⟨rest, hrest, h⟩ := bind_eq_ok.mp h
      exact ⟨_, taken, rest, htaken, hrest, (Except.ok.inj h).symm⟩

theorem headers_of_pos {highLow : UInt16 → Bool} {advance : ℤ → ℤ} {fuel : ℕ} {p size : ℤ} {r : RelocRun}
    (hpos : 0 < size) (h : f.blocks highLow advance data fuel p size = .ok r) : ∃ ps, r.headers = p :: ps := by
  cases fuel with
  | zero => cases h
  | succ fuel =>
    rw [PEFile.blocks, if_pos hpos] at h
    obtain ⟨_, _, h⟩ := bind_eq_ok.mp h
    obtain ⟨_, _, h⟩ := bind_eq_ok.mp h
    split at h
    · obtain rfl := Except.ok.inj h
      exact ⟨[], rfl⟩
    · split at h
      · cases h
      · obtain ⟨taken, _, h⟩ := bind_eq_ok.mp h
        obtain ⟨rest, _, h⟩ := bind_eq_ok.mp h
        obtain rfl := Except.ok.inj h
        exact ⟨taken.headers ++ rest.headers, rfl⟩

/-- A block whose entries are all read inside of `size` bytes has not more entries than bytes for them. -/
theorem end_of_block {highLow : UInt16 → Bool} {page : UInt32} {p n size : ℕ} {taken rest : RelocRun}
    (htaken : f.entries highLow data page (entryCount ((n : ℤ) - 8)) (p + 8) = .ok taken)
    (hreads : ∀ x ∈ ((blockHeader p).append (taken.append rest)).reads, x.1 + x.2 ≤ (size : ℤ)) :
    p + 8 + 2 * entryCount ((n : ℤ) - 8) ≤ size := by
  rcases Nat.eq_zero_or_pos (entryCount ((n : ℤ) - 8)) with hnone | hsome
  · have hheader := hreads (p + 4, 4) (by simp [blockHeader, RelocRun.append])
    rw [hnone]
    dsimp only at hheader
    omega
  · have hlast := hreads _ (List.mem_append_right _ (List.mem_append_left _ ((entries_inside htaken).2 hsome).2))
    dsimp only at hlast
    omega

theorem headers_tail {p : ℤ} {taken rest : RelocRun} {ps : List ℤ} (hnone : taken.headers = [])
    (h : ((blockHeader p).append (taken.append rest)).headers = p :: ps) : rest.headers = ps := by
  have htail : taken.headers ++ rest.headers = ps := (List.cons.inj h).2
  rwa [hnone] at htail

/-- Walks that take the blocks of the section and read inside of it: every block but the last ends where its entries end. -/
theorem fit_of_runs {size fuel p : ℕ} {counted written : RelocRun} {ps : List ℤ}
    (hps : PageBlocks data size p ps) (hp : p ≤ size)
    (hcounted : f.blocks isHighLow id data fuel p ((size : ℤ) - p) = .ok counted) (hcountedPs : counted.headers = ps)
    (hwritten : f.blocks hasHighLow (fun n => 8 + 2 * entryCount (n - 8)) data fuel p ((size : ℤ) - p) = .ok written)
    (hwrittenPs : written.headers = ps) (hreads : ∀ x ∈ counted.reads, x.1 + x.2 ≤ (size : ℤ)) :
    BlocksFit data size p := by
  induction hps generalizing fuel counted written with
  | @done p h =>
    obtain rfl : p = size := Nat.le_antisymm hp h
    exact .done
  | @last p h hzero =>
    cases fuel with
    | zero => cases hcounted
    | succ fuel =>
      obtain ⟨hdata, ⟨_, rfl⟩ | ⟨hnonzero, _⟩⟩ := blocks_inv (by omega) hcounted
      · have hheader := hreads (p + 4, 4) (by simp [blockHeader])
        dsimp only at hheader
        exact .last (by omega) hdata hzero
      · exact absurd hzero hnonzero
  | @block p n ps h hblock hpos hrest ih =>
    cases fuel with
    | zero => cases hcounted
    | succ fuel =>
      obtain ⟨hdata, ⟨hzero, _⟩ | ⟨_, page, taken, rest, htaken, hnext, rfl⟩⟩ := blocks_inv (by omega) hcounted
      · omega
      obtain ⟨_, ⟨hzero, _⟩ | ⟨_, page', taken', rest', htaken', hnext', rfl⟩⟩ := blocks_inv (by omega) hwritten
      · omega
      rw [hblock] at htaken hnext htaken' hnext'
      have hend := end_of_block htaken hreads
      have hheaders := headers_tail (entries_inside htaken).1 hcountedPs
      have hheaders' := headers_tail (entries_inside htaken').1 hwrittenPs
      have hsize : n = 8 + 2 * entryCount ((n : ℤ) - 8) ∧ p + n ≤ size := by
        rcases Nat.lt_or_ge (p + n) size with hmore | hover
        · obtain ⟨qs, hqs⟩ := headers_of_pos (by omega) hnext
          obtain ⟨qs', hqs'⟩ := headers_of_pos (by omega) hnext'
          have hsame : (p : ℤ) + n = p + (8 + 2 * entryCount ((n : ℤ) - 8)) := by
            rw [hheaders, ← hheaders', hqs'] at hqs
            exact (List.cons.inj hqs).1.symm
          omega
        · have hentries : n ≤ 8 + 2 * entryCount ((n : ℤ) - 8) := by
            rw [entryCount]
            omega
          omega
      obtain ⟨hn, hle⟩ := hsize
      have hentries : p + (8 + 2 * entryCount ((n : ℤ) - 8)) ≤ data.length := by
        rcases Nat.eq_zero_or_pos (entryCount ((n : ℤ) - 8)) with hnone | hsome
        · omega
        · have hin := ((entries_inside htaken).2 hsome).1
          omega
      have hstart : (p : ℤ) + (8 + 2 * entryCount ((n : ℤ) - 8)) = ((p + n : ℕ) : ℤ) := by omega
      have hleft : (size : ℤ) - p - n = size - ((p + n : ℕ) : ℤ) := by omega
      rw [id, ← Nat.cast_add, hleft] at hnext
      rw [hstart, hleft] at hnext'
      have hfits := ih hle hnext hheaders hnext' hheaders' fun x hx => hreads x
        (List.mem_append_right _ (List.mem_append_right _ hx))
      refine .block (by omega) hentries ?_ ?_
      · exact hn ▸ hblock
      · exact hn ▸ hfits

theorem BlocksFit.inv {size p : ℕ} (h : BlocksFit data size p) :
    p = size ∨ blockSize data p = 0 ∨
      ∃ n : ℕ, blockSize data p = (8 + 2 * n : ℕ) ∧ BlocksFit data size (p + (8 + 2 * n)) := by
  cases h with
  | done => exact .inl rfl
  | last _ _ hzero => exact .inr (.inl hzero)
  | @block _ n _ _ hsize rest => exact .inr (.inr ⟨n, hsize, rest⟩)

/-! ### `NumberOfRelocs` and `GetRelocs` -/

theorem below_of_agree {s : PeSection} (h : RelocsAgree f s) : s.VirtualSize.toNat < 2147483648 := by
  obtain ⟨fuel, counted, _, ps, hcounted, _, hps, hheaders, -⟩ := h
  by_contra hover
  have hrange := s.VirtualSize.toNat_lt
  have hneg : ¬ 0 < tint s.VirtualSize.toNat := by
    unfold tint
    rw [Nat.mod_eq_of_lt (by omega), if_neg (by omega)]
    omega
  cases fuel with
  | zero => cases hcounted
  | succ fuel =>
    rw [PEFile.NumberOfRelocs, PEFile.blocks, if_neg hneg] at hcounted
    obtain rfl := Except.ok.inj hcounted
    cases hps with
    | done hdone => omega
    | last => cases hheaders
    | block => cases hheaders

theorem fit_of_agree {s : PeSection} (h : RelocsAgree f s) : BlocksFit s.data s.VirtualSize.toNat 0 := by
  have hbelow := below_of_agree h
  obtain ⟨fuel, counted, written, ps, hcounted, hwritten, hps, hcountedPs, hwrittenPs, hreads, -⟩ := h
  have hzero : (s.VirtualSize.toNat : ℤ) = s.VirtualSize.toNat - (0 : ℕ) := (Int.sub_zero _).symm
  rw [PEFile.NumberOfRelocs, tint_of_lt hbelow, hzero] at hcounted
  rw [PEFile.GetRelocs, tint_of_lt hbelow, hzero] at hwritten
  exact fit_of_runs hps (Nat.zero_le _) hcounted hcountedPs hwritten hwrittenPs fun x hx => (hreads x hx).2

/-- The two functions agree just on the sections below 2 GiB whose blocks have the sizes of their entries. -/
theorem relocsAgree_iff (f : PEFile) (s : PeSection) :
    RelocsAgree f s ↔ s.VirtualSize.toNat < 2147483648 ∧ BlocksFit s.data s.VirtualSize.toNat 0 := by
  constructor
  · intro h
    exact ⟨below_of_agree h, fit_of_agree h⟩
  · rintro ⟨hbelow, hfit⟩
    have hzero : (s.VirtualSize.toNat : ℤ) = s.VirtualSize.toNat - (0 : ℕ) := (Int.sub_zero _).symm
    obtain ⟨fuel, ps, hps, hrun⟩ := blocks_run f hbelow hfit
    obtain ⟨counted, hcounted, hcountedPs, hcountedReads, hcountedSites⟩ := hrun id fun n => rfl
    have heven : ∀ n : ℕ, 8 + 2 * (entryCount (((8 + 2 * n : ℕ) : ℤ) - 8) : ℤ) = (8 + 2 * n : ℕ) := by
      intro n
      rw [entryCount_even]
      rfl
    obtain ⟨written, hwritten, hwrittenPs, hwrittenReads, hwrittenSites⟩ :=
      hrun (fun n => 8 + 2 * entryCount (n - 8)) heven
    refine ⟨fuel, counted, written, ps, ?_, ?_, hps, hcountedPs, hwrittenPs, hcountedReads, hwrittenReads, hcountedSites,
      hwrittenSites.trans hcountedSites.symm⟩
    · rw [PEFile.NumberOfRelocs, tint_of_lt hbelow, hzero, ← hasHighLow_eq]
      exact hcounted
    · rw [PEFile.GetRelocs, tint_of_lt hbelow, hzero]
      exact hwritten

/-- `.text` at address 0, and a `.reloc` section whose second block has a size below that of its header. -/
def shortBlock : PeSection where
  VirtualAddress := 0x3000
  VirtualSize := 40
  SizeOfRawData := 40
  data := [0, 0x10, 0, 0, 12, 0, 0, 0, 0, 0x30, 0, 0] ++ [0, 0, 0, 0, 4, 0, 0, 0] ++
    [0, 0, 0, 0, 12, 0, 0, 0, 4, 0x30, 0, 0] ++ [0, 0, 0, 0, 0, 0, 0, 0]
  length_data := rfl

def textAndRelocs (relocs : PeSection) : PEFile where
  sections
    | .KTextSection => some ⟨0, 0x2000, 0, [], rfl⟩
    | .KRelocSection => some relocs
    | _ => none
  iExportDataDir := 0
  iExportDirSize := 0
  iEntryPoint := 0

/-- One site is counted, and two are written. -/
theorem shortBlock_disagrees : ¬ RelocsAgree (textAndRelocs shortBlock) shortBlock ∧
    ((textAndRelocs shortBlock).NumberOfRelocs shortBlock 4).map (fun r => r.sites) = .ok [⟨0x1000, .KTextSection⟩] ∧
    ((textAndRelocs shortBlock).GetRelocs shortBlock 4).map (fun r => r.sites) =
      .ok [⟨0x1000, .KTextSection⟩, ⟨4, .KTextSection⟩] := by
  refine ⟨fun h => ?_, by decide +kernel, by decide +kernel⟩
  have hfirst : blockSize shortBlock.data 0 = 12 := by decide
  have hsecond : blockSize shortBlock.data 12 = 4 := by decide
  rcases (fit_of_agree h).inv with hdone | hzero | ⟨n, hn, hrest⟩
  · cases hdone
  · omega
  · obtain rfl : n = 2 := by omega
    have hfits : BlocksFit shortBlock.data 40 12 := hrest
    rcases hfits.inv with hdone | hzero | ⟨n, hn, -⟩
    · cases hdone
    · omega
    · omega

end GnuPoc.Petran
