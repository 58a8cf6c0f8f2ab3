import GnuPoc.Lib.ByteFile
import GnuPoc.Lib.Regions

/-!
# GnuPoc.Sis.PeCapabilities — the capabilities of a PE image

`GetPECapabilities` follows the headers of a PE image to its section `.SYMBIAN` and takes the capability word
from there.  The reads are traced: a read that the file cuts short leaves in its buffer what was there before.
Beside it stands the way the format describes: `e_lfanew` is a 32-bit number, and the section table follows
the optional header, whose size the file header names.
-/

namespace GnuPoc.Sis

open Lib

/-! ### The reader -/

/-- What is in the locals that nothing initialises: `coffOffset`, and `nameBuf` in each round of the loop. -/
structure Uninitialised where
  coffOffset : UInt8
  nameBuf : ℕ → Bytes
  length_nameBuf : ∀ i, (nameBuf i).length = 8

/-- `fread(buf, 1, n, in)` at a position. -/
def fread (file : Bytes) (pos n : ℕ) (buf : Bytes) : Bytes :=
  readAt file pos n ++ buf.drop (readAt file pos n).length

/-- `MZ` -/
def dosMagic : Bytes := [77, 90]

/-- `PE\0\0` -/
def peMagic : Bytes := [80, 69, 0, 0]

/-- `.SYMBIAN` -/
def symbianName : Bytes := [46, 83, 89, 77, 66, 73, 65, 78]

/-- What the function returns, and where it took the values from that it used: a position and a number of bytes. -/
structure PeReading where
  used : List (ℕ × ℕ)
  capabilities : Option Bytes

/-- The loop over the sections: what it read, and the position behind the name of the section it found. -/
def peSections (file : Bytes) (u : Uninitialised) (coffOffset : ℕ) : ℕ → ℕ → List (ℕ × ℕ) × Option ℕ
  | _, 0 => ([], none)
  | i, left + 1 =>
    let pos := coffOffset + 248 + 40 * i
    let nameBuf := fread file pos 8 (u.nameBuf i)
    if nameBuf = symbianName then ([(pos, 8)], some (pos + (readAt file pos 8).length))
    else ((pos, 8) :: (peSections file u coffOffset (i + 1) left).1, (peSections file u coffOffset (i + 1) left).2)

/-- The rest of the function, once it has found the section: the position in its entry, the buffer and the reads
up to there. -/
def capabilitiesAt (file : Bytes) (pos : ℕ) (buf : Bytes) (used : List (ℕ × ℕ)) : PeReading :=
  let sectionOffset := ofLE (fread file (pos + 12) 4 buf)
  -- `sectionOffset + 24` is a `uint32_t`
  let pos' := (sectionOffset + 24) % 4294967296
  let caps := readAt file pos' 4
  if caps.length ≠ 4 then ⟨used ++ [(pos + 12, 4)], none⟩
  else ⟨used ++ [(pos + 12, 4), (pos', 4)], if caps = [0, 0, 0, 0] then none else some caps⟩

def GetPECapabilities (u : Uninitialised) (file : Bytes) : PeReading :=
  let buf := fread file 0 2 [0, 0, 0, 0]
  if buf.take 2 ≠ dosMagic then ⟨[(0, 2)], none⟩
  else
    let coffOffset := ofLE (fread file 0x3c 1 [u.coffOffset])
    let buf := fread file coffOffset 4 buf
    let used := [(0, 2), (0x3c, 1), (coffOffset, 4)]
    if buf ≠ peMagic then ⟨used, none⟩
    else
      let pos := coffOffset + (readAt file coffOffset 4).length + 2
      let buf := fread file pos 2 buf
      let numberOfSections := ofLE (buf.take 2)
      let sections := peSections file u coffOffset 0 numberOfSections
      let used := used ++ [(pos, 2)] ++ sections.1
      match sections.2 with
      | none => ⟨used, none⟩
      | some pos => capabilitiesAt file pos buf used

variable {file : Bytes}

theorem fread_of_le {pos n : ℕ} (h : pos + n ≤ file.length) (buf : Bytes) :
    fread file pos n buf = readAt file pos n ++ buf.drop n := by
  rw [fread, length_readAt_of_le h]

theorem take_fread {pos n : ℕ} (h : pos + n ≤ file.length) (buf : Bytes) :
    (fread file pos n buf).take n = readAt file pos n := by
  rw [fread_of_le h, List.take_left' (length_readAt_of_le h)]

theorem fread_full {pos n : ℕ} (h : pos + n ≤ file.length) {buf : Bytes} (hn : buf.length ≤ n) :
    fread file pos n buf = readAt file pos n := by
  rw [fread_of_le h, List.drop_eq_nil_of_le hn, List.append_nil]

/-! ### The format -/

/-- What a PE image says of itself. -/
structure PeHeader where
  e_lfanew : ℕ
  numberOfSections : ℕ
  sizeOfOptionalHeader : ℕ

/-- Bytes that lie inside the file. -/
def field? (file : Bytes) (pos n : ℕ) : Option Bytes :=
  if pos + n ≤ file.length then some (readAt file pos n) else none

theorem field?_of_le {pos n : ℕ} (h : pos + n ≤ file.length) :
    field? file pos n = some (readAt file pos n) := if_pos h

theorem length_of_field? {file b : Bytes} {pos n : ℕ} (h : field? file pos n = some b) : pos + n ≤ file.length := by
  rw [field?, Option.ite_none_right_eq_some] at h
  exact h.1

def peHeader (file : Bytes) : Option PeHeader :=
  let e_lfanew := ofLE (readAt file 0x3c 4)
  if readAt file 0 2 = dosMagic ∧ 64 ≤ file.length ∧ e_lfanew + 24 ≤ file.length ∧ readAt file e_lfanew 4 = peMagic then
    some ⟨e_lfanew, ofLE (readAt file (e_lfanew + 6) 2), ofLE (readAt file (e_lfanew + 20) 2)⟩
  else none

def PeHeader.sectionEntry (h : PeHeader) (i : ℕ) : ℕ := h.e_lfanew + 24 + h.sizeOfOptionalHeader + 40 * i

/-- The first section that is called `.SYMBIAN`. -/
def symbianSection (file : Bytes) (h : PeHeader) : Option ℕ :=
  (List.range h.numberOfSections).find? fun i => readAt file (h.sectionEntry i) 8 = symbianName

/-- Where the data of a section stand. -/
def pointerToRawData (file : Bytes) (h : PeHeader) (i : ℕ) : Option ℕ :=
  ofLE <$> field? file (h.sectionEntry i + 20) 4

/-- The capability word of a PE image with a section `.SYMBIAN`, unless it is zero. -/
def capabilityWord (file : Bytes) : Option Bytes := do
  let h ← peHeader file
  let i ← symbianSection file h
  let pointer ← pointerToRawData file h i
  let caps ← field? file (pointer + 24) 4
  if caps = [0, 0, 0, 0] then none else some caps

/-- The run reports what the format says, and every value it used lay in the file. -/
def Reports (u : Uninitialised) (file : Bytes) : Prop :=
  (GetPECapabilities u file).capabilities = capabilityWord file ∧
    ∀ r ∈ (GetPECapabilities u file).used, r.1 + r.2 ≤ file.length

/-! ### Following the headers -/

/-- The byte at the place of `e_lfanew`. -/
def coffOffset (file : Bytes) : ℕ := ofLE (readAt file 0x3c 1)

/-- The function looks for the headers where the format places them: where a PE header stands at `e_lfanew` or at its
lowest byte, `e_lfanew` fits in that byte, the optional header is the one of PE32, and the position of the section's
data does not wrap. -/
structure Followed (file : Bytes) : Prop where
  e_lfanew : readAt file 0 2 = dosMagic → 64 ≤ file.length →
    readAt file (coffOffset file) 4 = peMagic ∨ (peHeader file).isSome → ofLE (readAt file 0x3c 4) < 256
  sizeOfOptionalHeader : ∀ h, peHeader file = some h → h.sizeOfOptionalHeader = 224
  pointer : ∀ h i p, peHeader file = some h → symbianSection file h = some i → pointerToRawData file h i = some p →
    p + 24 < 4294967296

def numberOfSections (file : Bytes) : ℕ := ofLE (readAt file (coffOffset file + 6) 2)

/-- The name of a section behind an optional header of 224 bytes. -/
def nameAt (file : Bytes) (i : ℕ) : Bytes := readAt file (coffOffset file + 248 + 40 * i) 8

/-- The headers lie in the file, up to the entry of the section. -/
structure Covered (file : Bytes) : Prop where
  magic : 2 ≤ file.length
  coff : readAt file 0 2 = dosMagic → 61 ≤ file.length ∧ coffOffset file + 4 ≤ file.length
  count : readAt file 0 2 = dosMagic → readAt file (coffOffset file) 4 = peMagic → coffOffset file + 8 ≤ file.length
  names : readAt file 0 2 = dosMagic → readAt file (coffOffset file) 4 = peMagic → ∀ i < numberOfSections file,
    (∀ j < i, nameAt file j ≠ symbianName) → coffOffset file + 248 + 40 * i + 8 ≤ file.length
  entry : readAt file 0 2 = dosMagic → readAt file (coffOffset file) 4 = peMagic → ∀ i < numberOfSections file,
    nameAt file i = symbianName → (∀ j < i, nameAt file j ≠ symbianName) →
    coffOffset file + 248 + 40 * i + 24 ≤ file.length

theorem peSections_used (u : Uninitialised) {c left i : ℕ} :
    (∀ r ∈ (peSections file u c i left).1, r.1 + r.2 ≤ file.length) ↔
      ∀ k < left, (∀ j < k, readAt file (c + 248 + 40 * (i + j)) 8 ≠ symbianName) →
        c + 248 + 40 * (i + k) + 8 ≤ file.length := by
  induction left generalizing i with
  | zero => simp [peSections]
  | succ left ih =>
    by_cases h0 : c + 248 + 40 * i + 8 ≤ file.length
    · have hname := fread_full h0 (u.length_nameBuf i).le
      by_cases hn : readAt file (c + 248 + 40 * i) 8 = symbianName
      · simp only [peSections, hname, if_pos hn, List.mem_singleton, forall_eq]
        refine ⟨fun _ k hk hj => ?_, fun _ => h0⟩
        rcases Nat.eq_zero_or_pos k with rfl | hpos
        · exact h0
        · exact absurd hn (hj 0 hpos)
      · simp only [peSections, hname, if_neg hn, List.forall_mem_cons, ih]
        constructor
        · rintro ⟨-, h⟩ k hk hj
          match k with
          | 0 => exact h0
          | k + 1 =>
            have hk' := h k (by omega) fun j hjk => by
              have := hj (j + 1) (by omega)
              rwa [show i + (j + 1) = i + 1 + j by omega] at this
            rwa [show i + (k + 1) = i + 1 + k by omega]
        · intro h
          refine ⟨h0, fun k hk hj => ?_⟩
          have hk' := h (k + 1) (by omega) fun j hjk => by
            match j with
            | 0 => exact hn
            | j + 1 =>
              rw [show i + (j + 1) = i + 1 + j by omega]
              exact hj j (by omega)
          rwa [show i + (k + 1) = i + 1 + k by omega] at hk'
    · refine iff_of_false (fun h => ?_) fun h => h0 (h 0 (by omega) (by simp))
      have hmem : (c + 248 + 40 * i, 8) ∈ (peSections file u c i (left + 1)).1 := by
        simp only [peSections]
        split <;> simp
      exact h0 (h _ hmem)

theorem peSections_found (u : Uninitialised) {c left i : ℕ}
    (h : ∀ r ∈ (peSections file u c i left).1, r.1 + r.2 ≤ file.length) :
    (peSections file u c i left).2 =
      ((List.range' i left).find? fun j => readAt file (c + 248 + 40 * j) 8 = symbianName).map
        fun j => c + 248 + 40 * j + 8 := by
  induction left generalizing i with
  | zero => simp [peSections]
  | succ left ih =>
    have h0 : c + 248 + 40 * i + 8 ≤ file.length := by
      have := (peSections_used u).mp h 0 (by omega)
      simpa using this
    have hname := fread_full h0 (u.length_nameBuf i).le
    rw [List.range'_succ, List.find?_cons]
    by_cases hn : readAt file (c + 248 + 40 * i) 8 = symbianName
    · simp only [peSections, hname, hn, ↓reduceIte, decide_true, Option.map_some]
      rfl
    · simp only [peSections, hname, if_neg hn, List.forall_mem_cons] at h ⊢
      simp only [hn, decide_false, ih h.2]

theorem capabilitiesAt_used {pos : ℕ} {buf : Bytes} {used : List (ℕ × ℕ)} :
    (∀ r ∈ (capabilitiesAt file pos buf used).used, r.1 + r.2 ≤ file.length) ↔
      (∀ r ∈ used, r.1 + r.2 ≤ file.length) ∧ pos + 16 ≤ file.length := by
  simp only [capabilitiesAt]
  split
  · simp only [List.forall_mem_append, List.mem_singleton, forall_eq]
  · rename_i hlen
    rw [length_readAt] at hlen
    simp only [List.forall_mem_append, List.forall_mem_cons, List.not_mem_nil, false_imp_iff, implies_true, and_true]
    constructor
    · rintro ⟨h, h', -⟩
      exact ⟨h, by omega⟩
    · rintro ⟨h, h'⟩
      exact ⟨h, by omega, by omega⟩

theorem mem_capabilitiesAt {pos : ℕ} {buf : Bytes} {used : List (ℕ × ℕ)} {r : ℕ × ℕ} (h : r ∈ used) :
    r ∈ (capabilitiesAt file pos buf used).used := by
  simp only [capabilitiesAt]
  split_ifs <;> exact List.mem_append_left _ h

theorem capabilitiesAt_capabilities {pos : ℕ} {buf : Bytes} (used : List (ℕ × ℕ))
    (hbuf : buf.length ≤ 4) (hpos : pos + 16 ≤ file.length) (hp : ofLE (readAt file (pos + 12) 4) + 24 < 4294967296) :
    (capabilitiesAt file pos buf used).capabilities =
      (field? file (ofLE (readAt file (pos + 12) 4) + 24) 4).bind
        fun caps => if caps = [0, 0, 0, 0] then none else some caps := by
  have hfull : fread file (pos + 12) 4 buf = readAt file (pos + 12) 4 := fread_full (by omega) hbuf
  simp only [capabilitiesAt, hfull, Nat.mod_eq_of_lt hp, length_readAt, field?]
  by_cases hin : ofLE (readAt file (pos + 12) 4) + 24 + 4 ≤ file.length
  · rw [if_neg (by omega), if_pos hin]
    rfl
  · rw [if_pos (by omega), if_neg hin]
    rfl

section
variable {file : Bytes} (u : Uninitialised)

theorem used_magic : (0, 2) ∈ (GetPECapabilities u file).used := by
  simp only [GetPECapabilities]
  repeat' split
  all_goals first | (simp; done) | exact mem_capabilitiesAt (by simp)

theorem reading_of_not_dos (h : 2 ≤ file.length) (hmz : readAt file 0 2 ≠ dosMagic) :
    GetPECapabilities u file = ⟨[(0, 2)], none⟩ := by
  simp only [GetPECapabilities]
  rw [take_fread h, if_pos hmz]

variable (hmz : readAt file 0 2 = dosMagic)
include hmz

theorem length_of_dos : 2 ≤ file.length := by
  have h := congrArg List.length hmz
  simp only [length_readAt, dosMagic, List.length_cons, List.length_nil] at h
  omega

theorem used_coff : (0x3c, 1) ∈ (GetPECapabilities u file).used := by
  simp only [GetPECapabilities]
  rw [take_fread (length_of_dos hmz), if_neg (not_not_intro hmz)]
  repeat' split
  all_goals first | (simp; done) | exact mem_capabilitiesAt (by simp)

variable (h61 : 61 ≤ file.length)
include h61

omit hmz in
theorem fread_coffOffset : ofLE (fread file 0x3c 1 [u.coffOffset]) = coffOffset file := by
  rw [fread_full h61 (by simp), coffOffset]

theorem used_pe : (coffOffset file, 4) ∈ (GetPECapabilities u file).used := by
  simp only [GetPECapabilities]
  rw [take_fread (length_of_dos hmz), if_neg (not_not_intro hmz), fread_coffOffset u h61]
  repeat' split
  all_goals first | (simp; done) | exact mem_capabilitiesAt (by simp)

variable (hb : coffOffset file + 4 ≤ file.length)
include hb

theorem reading_of_not_pe (hpe : readAt file (coffOffset file) 4 ≠ peMagic) :
    GetPECapabilities u file = ⟨[(0, 2), (0x3c, 1), (coffOffset file, 4)], none⟩ := by
  have hbuf : (fread file 0 2 [0, 0, 0, 0]).length ≤ 4 := by
    rw [fread_of_le (length_of_dos hmz)]
    simp
  simp only [GetPECapabilities]
  rw [take_fread (length_of_dos hmz), if_neg (not_not_intro hmz), fread_coffOffset u h61, fread_full hb hbuf,
    if_pos hpe]

variable (hpe : readAt file (coffOffset file) 4 = peMagic)
include hpe

theorem reading_of_pe : GetPECapabilities u file =
    let buf := fread file (coffOffset file + 6) 2 peMagic
    let sections := peSections file u (coffOffset file) 0 (ofLE (buf.take 2))
    let used := [(0, 2), (0x3c, 1), (coffOffset file, 4), (coffOffset file + 6, 2)] ++ sections.1
    match sections.2 with
    | none => ⟨used, none⟩
    | some pos => capabilitiesAt file pos buf used := by
  have hbuf : (fread file 0 2 [0, 0, 0, 0]).length ≤ 4 := by
    rw [fread_of_le (length_of_dos hmz)]
    simp
  simp only [GetPECapabilities]
  rw [take_fread (length_of_dos hmz), if_neg (not_not_intro hmz), fread_coffOffset u h61, fread_full hb hbuf,
    if_neg (not_not_intro hpe), hpe]
  rfl

theorem used_count : (coffOffset file + 6, 2) ∈ (GetPECapabilities u file).used := by
  rw [reading_of_pe u hmz h61 hb hpe]
  dsimp only
  split
  · simp
  · exact mem_capabilitiesAt (by simp)

end

/-- The one byte is the whole of `e_lfanew`. -/
theorem coffOffset_eq (h : ofLE (readAt file 0x3c 4) < 256) : coffOffset file = ofLE (readAt file 0x3c 4) := by
  have hadd : ofLE ((file.drop 0x3c).take 4) = _ := ofLE_take_add 1 3 (file.drop 0x3c)
  have hlt := ofLE_take_lt 1 (file.drop 0x3c)
  simp only [coffOffset, readAt] at h ⊢
  omega

theorem peHeader_of_followed {h : PeHeader} (hf : Followed file) (hh : peHeader file = some h) :
    h = ⟨coffOffset file, numberOfSections file, 224⟩ := by
  have ho := hf.sizeOfOptionalHeader h hh
  have hsome : (peHeader file).isSome := Option.isSome_of_eq_some hh
  simp only [peHeader, Option.ite_none_right_eq_some, Option.some.injEq] at hh
  obtain ⟨⟨hmz, h64, -⟩, rfl⟩ := hh
  rw [numberOfSections, coffOffset_eq (hf.e_lfanew hmz h64 (.inr hsome))]
  exact congrArg _ ho

theorem peHeader_isSome (hf : Followed file) (hmz : readAt file 0 2 = dosMagic)
    (hlen : 64 ≤ file.length) (hb : coffOffset file + 24 ≤ file.length) (hpe : readAt file (coffOffset file) 4 = peMagic) :
    peHeader file = some ⟨coffOffset file, numberOfSections file, 224⟩ := by
  have he := coffOffset_eq (hf.e_lfanew hmz hlen (.inl hpe))
  have hsome : ∃ h, peHeader file = some h := by
    simp only [peHeader, ← he, if_pos (show _ ∧ _ ∧ _ ∧ _ from ⟨hmz, hlen, hb, hpe⟩)]
    exact ⟨_, rfl⟩
  obtain ⟨h, hh⟩ := hsome
  rw [hh, peHeader_of_followed hf hh]

/-- The sections of a PE image: the function finds what the format says, where it can read the entries. -/
theorem reports_iff_of_pe (u : Uninitialised) (hf : Followed file) (hmz : readAt file 0 2 = dosMagic)
    (h61 : 61 ≤ file.length) (hb : coffOffset file + 4 ≤ file.length)
    (hpe : readAt file (coffOffset file) 4 = peMagic) (h8 : coffOffset file + 8 ≤ file.length) :
    Reports u file ↔ Covered file := by
  have hcount : ofLE ((fread file (coffOffset file + 6) 2 peMagic).take 2) = numberOfSections file := by
    rw [take_fread (by omega), numberOfSections]
  have hcovered : Covered file ↔
      (∀ r ∈ (peSections file u (coffOffset file) 0 (numberOfSections file)).1, r.1 + r.2 ≤ file.length) ∧
      ∀ i < numberOfSections file, nameAt file i = symbianName → (∀ j < i, nameAt file j ≠ symbianName) →
        coffOffset file + 248 + 40 * i + 24 ≤ file.length := by
    rw [peSections_used]
    simp only [Nat.zero_add]
    exact ⟨fun h => ⟨h.names hmz hpe, h.entry hmz hpe⟩,
      fun h => ⟨by omega, fun _ => ⟨h61, hb⟩, fun _ _ => h8, fun _ _ => h.1, fun _ _ => h.2⟩⟩
  rw [hcovered, Reports, reading_of_pe u hmz h61 hb hpe]
  dsimp only
  rw [hcount]
  set sections := peSections file u (coffOffset file) 0 (numberOfSections file) with hsections
  by_cases hin : ∀ r ∈ sections.1, r.1 + r.2 ≤ file.length
  swap
  · refine iff_of_false (fun h => hin fun r hr => h.2 r ?_) fun h => hin h.1
    cases sections.2 with
    | none => exact List.mem_append_right _ hr
    | some pos => exact mem_capabilitiesAt (List.mem_append_right _ hr)
  have hused : ∀ r ∈ [(0, 2), (0x3c, 1), (coffOffset file, 4), (coffOffset file + 6, 2)] ++ sections.1,
      r.1 + r.2 ≤ file.length := by
    refine List.forall_mem_append.mpr ⟨?_, hin⟩
    simp only [List.forall_mem_cons, List.not_mem_nil, false_imp_iff, implies_true, and_true]
    omega
  have hfound : sections.2 = ((List.range (numberOfSections file)).find? fun i => nameAt file i = symbianName).map
      fun i => coffOffset file + 248 + 40 * i + 8 := by
    rw [hsections, peSections_found u hin, ← List.range_eq_range']
    rfl
  cases hfind : (List.range (numberOfSections file)).find? fun i => nameAt file i = symbianName with
  | none =>
    rw [hfound, hfind]
    refine iff_of_true ⟨?_, hused⟩ ⟨hin, fun i hi hn => ?_⟩
    · cases hh : peHeader file with
      | none => simp [capabilityWord, hh]
      | some h =>
        have hsec : symbianSection file h = none := by
          rw [peHeader_of_followed hf hh, ← hfind]
          rfl
        simp [capabilityWord, hh, hsec]
    · have := List.find?_range_eq_none.mp hfind i hi
      simp [hn] at this
  | some i =>
    obtain ⟨hi, hmem, hbefore⟩ := List.find?_range_eq_some.mp hfind
    simp only [decide_eq_true_eq, Bool.not_eq_true', decide_eq_false_iff_not] at hi hbefore
    rw [hfound, hfind]
    dsimp only [Option.map_some]
    rw [capabilitiesAt_used]
    constructor
    · rintro ⟨-, -, hentry⟩
      refine ⟨hin, fun j hj hn hjbefore => ?_⟩
      obtain rfl : i = j := by
        rcases Nat.lt_trichotomy i j with hij | rfl | hij
        · exact absurd hi (hjbefore i hij)
        · rfl
        · exact absurd hn (hbefore j hij)
      omega
    · rintro ⟨-, h⟩
      have hentry := h i (List.mem_range.mp hmem) hi hbefore
      have hh := peHeader_isSome hf hmz (by omega) (by omega) hpe
      have hsec : symbianSection file ⟨coffOffset file, numberOfSections file, 224⟩ = some i := hfind
      have hptr : pointerToRawData file ⟨coffOffset file, numberOfSections file, 224⟩ i =
          some (ofLE (readAt file (coffOffset file + 248 + 40 * i + 20) 4)) := by
        simp only [pointerToRawData, PeHeader.sectionEntry]
        rw [field?_of_le (by omega)]
        rfl
      have hlt := hf.pointer _ _ _ hh hsec hptr
      refine ⟨?_, hused, by omega⟩
      rw [capabilitiesAt_capabilities _ (by simp [fread, peMagic]) (by omega) hlt]
      simp [capabilityWord, hh, hsec, hptr]

/-- The function reports the word of the section in a file whose headers it follows, where they lie in the file. -/
theorem reports_iff (u : Uninitialised) (hf : Followed file) : Reports u file ↔ Covered file := by
  by_cases h2 : 2 ≤ file.length
  swap
  · exact iff_of_false (fun h => h2 (h.2 _ (used_magic u))) fun h => h2 h.magic
  by_cases hmz : readAt file 0 2 = dosMagic
  swap
  · have hnone : peHeader file = none := by simp [peHeader, hmz]
    refine iff_of_true ⟨?_, ?_⟩ ⟨h2, ?_, ?_, ?_, ?_⟩
    · rw [reading_of_not_dos u h2 hmz, capabilityWord, hnone]
      rfl
    · rw [reading_of_not_dos u h2 hmz]
      simpa using h2
    all_goals exact fun h => absurd h hmz
  by_cases h61 : 61 ≤ file.length
  swap
  · exact iff_of_false (fun h => h61 (h.2 _ (used_coff u hmz))) fun h => h61 (h.coff hmz).1
  by_cases hb : coffOffset file + 4 ≤ file.length
  swap
  · exact iff_of_false (fun h => hb (h.2 _ (used_pe u hmz h61))) fun h => hb (h.coff hmz).2
  by_cases hpe : readAt file (coffOffset file) 4 = peMagic
  swap
  · have hnone : peHeader file = none := by
      refine if_neg fun h => ?_
      have hsome : (peHeader file).isSome := Option.isSome_of_eq_some (if_pos h)
      rw [coffOffset_eq (hf.e_lfanew hmz h.2.1 (.inr hsome))] at hpe
      exact hpe h.2.2.2
    refine iff_of_true ⟨?_, ?_⟩ ⟨h2, fun _ => ⟨h61, hb⟩, ?_, ?_, ?_⟩
    · rw [reading_of_not_pe u hmz h61 hb hpe, capabilityWord, hnone]
      rfl
    · rw [reading_of_not_pe u hmz h61 hb hpe]
      simpa using ⟨h2, h61, hb⟩
    all_goals exact fun _ h => absurd h hpe
  by_cases h8 : coffOffset file + 8 ≤ file.length
  swap
  · exact iff_of_false (fun h => h8 (h.2 _ (used_count u hmz h61 hb hpe))) fun h => h8 (h.count hmz hpe)
  exact reports_iff_of_pe u hf hmz h61 hb hpe h8

/-! ### Every layout -/

/-- A PE image with these two numbers, whose section `.SYMBIAN` has its word in the file. -/
structure ImageOf (e_lfanew sizeOfOptionalHeader : ℕ) (file : Bytes) (h : PeHeader) (i p : ℕ) : Prop where
  header : peHeader file = some h
  e_lfanew : h.e_lfanew = e_lfanew
  sizeOfOptionalHeader : h.sizeOfOptionalHeader = sizeOfOptionalHeader
  section_ : symbianSection file h = some i
  pointer : pointerToRawData file h i = some p
  inside : p + 28 ≤ file.length
  narrow : p + 24 < 4294967296

theorem ImageOf.followed {e : ℕ} {file : Bytes} {h : PeHeader} {i p : ℕ} (hi : ImageOf e 224 file h i p) (he : e < 256) :
    Followed file where
  e_lfanew _ _ _ := by
    have hh := hi.header
    simp only [peHeader, Option.ite_none_right_eq_some, Option.some.injEq] at hh
    obtain ⟨-, rfl⟩ := hh
    calc _ = e := hi.e_lfanew
      _ < 256 := he
  sizeOfOptionalHeader h' hh' := by
    obtain rfl : h = h' := Option.some.inj (hi.header.symm.trans hh')
    exact hi.sizeOfOptionalHeader
  pointer h' i' p' hh' hi' hp' := by
    obtain rfl : h = h' := Option.some.inj (hi.header.symm.trans hh')
    obtain rfl : i = i' := Option.some.inj (hi.section_.symm.trans hi')
    obtain rfl : p = p' := Option.some.inj (hi.pointer.symm.trans hp')
    exact hi.narrow

theorem ImageOf.covered {e : ℕ} {file : Bytes} {h : PeHeader} {i p : ℕ} (hi : ImageOf e 224 file h i p) (he : e < 256) :
    Covered file := by
  have hf := hi.followed he
  have hh := hi.header
  obtain rfl := peHeader_of_followed hf hh
  have hh' := hh
  simp only [peHeader, Option.ite_none_right_eq_some] at hh
  obtain ⟨⟨hmz, h64, h24, hpe⟩, -⟩ := hh
  rw [← coffOffset_eq (hf.e_lfanew hmz h64 (.inr (Option.isSome_of_eq_some hh')))] at h24
  have hentry : coffOffset file + 248 + 40 * i + 24 ≤ file.length := by
    obtain ⟨b, hb, -⟩ := Option.map_eq_some_iff.mp hi.pointer
    have hlen := length_of_field? hb
    simp only [PeHeader.sectionEntry] at hlen
    omega
  have hfind : (List.range (numberOfSections file)).find? (fun j => nameAt file j = symbianName) = some i := hi.section_
  obtain ⟨hname, hmem, hbefore⟩ := List.find?_range_eq_some.mp hfind
  simp only [decide_eq_true_eq] at hname
  have hle : ∀ j, (∀ k < j, nameAt file k ≠ symbianName) → j ≤ i := fun j hj =>
    Nat.le_of_not_lt fun hij => hj i hij hname
  refine ⟨by omega, fun _ => ⟨by omega, by omega⟩, fun _ _ => by omega, fun _ _ j _ hj => ?_, fun _ _ j _ _ hj => ?_⟩
  · have := hle j hj
    omega
  · have := hle j hj
    omega

/-- The smallest image of a layout: one section, whose data begin with the file. -/
def imageRegions (e_lfanew sizeOfOptionalHeader : ℕ) : List (Region UInt8) :=
  [⟨0, dosMagic⟩, ⟨24, [1, 0, 0, 0]⟩, ⟨0x3c, leBytes 4 e_lfanew⟩, ⟨e_lfanew, peMagic ++ [0, 0, 1, 0]⟩,
    ⟨e_lfanew + 20, leBytes 2 sizeOfOptionalHeader⟩,
    ⟨e_lfanew + 24 + sizeOfOptionalHeader, symbianName ++ List.replicate 32 0⟩]

def imageOf (e_lfanew sizeOfOptionalHeader : ℕ) : Bytes := spread 0 0 (imageRegions e_lfanew sizeOfOptionalHeader)

section
variable {e o : ℕ} (he : 64 ≤ e)
include he

theorem ascending_imageRegions : Ascending 0 (imageRegions e o) := by
  simp only [imageRegions, Ascending, Region.stop, length_leBytes, dosMagic, peMagic, List.length_append,
    List.length_cons, List.length_nil, and_true]
  omega

theorem length_imageOf : (imageOf e o).length = e + o + 64 := by
  have h : 0 + (imageOf e o).length = regionsEnd 0 (imageRegions e o) := length_spread 0 (ascending_imageRegions he)
  have hend : regionsEnd 0 (imageRegions e o) = e + 24 + o + 40 := by simp [imageRegions, regionsEnd, Region.stop, symbianName]
  omega

theorem readAt_imageOf {r : Region UInt8} (hr : r ∈ imageRegions e o) {k n : ℕ} (hk : k + n ≤ r.cells.length) :
    readAt (imageOf e o) (r.start + k) n = (r.cells.drop k).take n := by
  ext1 j
  rw [readAt, List.getElem?_take, List.getElem?_take, List.getElem?_drop, List.getElem?_drop]
  by_cases hj : j < n
  · have := getElem?_spread_of_mem 0 (ascending_imageRegions he) r hr (k + j) (by omega)
    rw [if_pos hj, if_pos hj, ← this, imageOf]
    congr 1
    omega
  · rw [if_neg hj, if_neg hj]

theorem imageOf_gap {a : ℕ} (ha : a < e + o + 64) (hgap : ∀ r ∈ imageRegions e o, ¬ r.Covers a) :
    (imageOf e o)[a]? = some 0 := by
  have hlen : 0 + (imageOf e o).length = regionsEnd 0 (imageRegions e o) := length_spread 0 (ascending_imageRegions he)
  rw [length_imageOf he] at hlen
  exact getElem?_spread_gap 0 (ascending_imageRegions he) (Nat.zero_le a) (by omega) hgap

/-- In front of the header stand the magic, the word and `e_lfanew`. -/
theorem imageOf_front {a : ℕ} (ha : a < e) (h : 2 ≤ a) (h24 : a < 24 ∨ 28 ≤ a) (h60 : a < 0x3c ∨ 0x40 ≤ a) :
    (imageOf e o)[a]? = some 0 := by
  refine imageOf_gap he (by omega) ?_
  simp only [imageRegions, List.forall_mem_cons, List.not_mem_nil, false_imp_iff, implies_true, and_true, Region.Covers,
    Region.stop, dosMagic, length_leBytes, List.length_cons, List.length_nil]
  omega

theorem getElem?_imageOf {r : Region UInt8} (hr : r ∈ imageRegions e o) {k : ℕ} (hk : k < r.cells.length) :
    (imageOf e o)[r.start + k]? = r.cells[k]? := by
  have h := getElem?_spread_of_mem 0 (ascending_imageRegions he) r hr k hk
  rwa [Nat.sub_zero] at h

variable (hne : e < 4294967296) (ho : o < 65536)
include hne

theorem e_lfanew_imageOf : ofLE (readAt (imageOf e o) 0x3c 4) = e := by
  have h := readAt_imageOf he (o := o) (r := ⟨0x3c, leBytes 4 e⟩) (by simp [imageRegions]) (k := 0) (n := 4) (by simp)
  rw [Nat.add_zero, List.drop_zero, List.take_of_length_le (by simp)] at h
  rw [h, ofLE_leBytes_of_lt (by omega)]

include ho

theorem peHeader_imageOf : peHeader (imageOf e o) = some ⟨e, 1, o⟩ := by
  have hmz : readAt (imageOf e o) 0 2 = dosMagic :=
    readAt_imageOf he (r := ⟨0, dosMagic⟩) (by simp [imageRegions]) (k := 0) (by simp [dosMagic])
  have hpe : readAt (imageOf e o) e 4 = peMagic :=
    readAt_imageOf he (r := ⟨e, peMagic ++ [0, 0, 1, 0]⟩) (by simp [imageRegions]) (k := 0) (by simp [peMagic])
  have hcount : readAt (imageOf e o) (e + 6) 2 = [1, 0] :=
    readAt_imageOf he (r := ⟨e, peMagic ++ [0, 0, 1, 0]⟩) (by simp [imageRegions]) (by simp [peMagic])
  have hopt : readAt (imageOf e o) (e + 20) 2 = leBytes 2 o :=
    readAt_imageOf he (r := ⟨e + 20, leBytes 2 o⟩) (by simp [imageRegions]) (k := 0) (by simp)
  have hlen := length_imageOf (o := o) he
  simp only [peHeader, e_lfanew_imageOf he hne]
  rw [if_pos ⟨hmz, by omega, by omega, hpe⟩, hcount, hopt, ofLE_leBytes_of_lt (by omega)]
  rfl

theorem imageOf_isImage : ImageOf e o (imageOf e o) ⟨e, 1, o⟩ 0 0 where
  header := peHeader_imageOf he hne ho
  e_lfanew := rfl
  sizeOfOptionalHeader := rfl
  section_ := by
    have hname : readAt (imageOf e o) (e + 24 + o) 8 = symbianName :=
      readAt_imageOf he (r := ⟨e + 24 + o, symbianName ++ List.replicate 32 0⟩) (by simp [imageRegions]) (k := 0)
        (by simp [symbianName])
    simp [symbianSection, PeHeader.sectionEntry, hname]
  pointer := by
    have hptr : readAt (imageOf e o) (e + 24 + o + 20) 4 = [0, 0, 0, 0] :=
      readAt_imageOf he (r := ⟨e + 24 + o, symbianName ++ List.replicate 32 0⟩) (by simp [imageRegions])
        (by simp [symbianName])
    have hlen := length_imageOf (o := o) he
    have hin : e + 24 + o + 20 + 4 ≤ (imageOf e o).length := by omega
    rw [pointerToRawData, PeHeader.sectionEntry, Nat.mul_zero, Nat.add_zero, field?_of_le hin, hptr]
    rfl
  inside := by
    have hlen := length_imageOf (o := o) he
    omega
  narrow := by omega

theorem capabilityWord_imageOf : capabilityWord (imageOf e o) = some [1, 0, 0, 0] := by
  have hi := imageOf_isImage he hne ho
  have hword : readAt (imageOf e o) 24 4 = [1, 0, 0, 0] :=
    readAt_imageOf he (r := ⟨24, [1, 0, 0, 0]⟩) (by simp [imageRegions]) (k := 0) (by simp)
  have hlen := length_imageOf (o := o) he
  simp [capabilityWord, hi.header, hi.section_, hi.pointer, field?_of_le (show 24 + 4 ≤ (imageOf e o).length by omega), hword]

/-- A header at or behind 256 is not found. -/
theorem capabilities_imageOf_far (u : Uninitialised) (hfar : 256 ≤ e) :
    (GetPECapabilities u (imageOf e o)).capabilities = none := by
  have hlen := length_imageOf (o := o) he
  have hmz : readAt (imageOf e o) 0 2 = dosMagic :=
    readAt_imageOf he (r := ⟨0, dosMagic⟩) (by simp [imageRegions]) (k := 0) (by simp [dosMagic])
  have hc : coffOffset (imageOf e o) < 256 := ofLE_take_lt 1 _
  by_cases hpe : readAt (imageOf e o) (coffOffset (imageOf e o)) 4 = peMagic
  swap
  · rw [reading_of_not_pe u hmz (by omega) (by omega) hpe]
  -- a `P` in front of the header can only be a byte of `e_lfanew`
  have hP : (imageOf e o)[coffOffset (imageOf e o)]? = some 80 := by
    have h0 := congrArg (·[0]?) hpe
    simpa [readAt, peMagic, List.getElem?_take] using h0
  have hplace : 0x3c ≤ coffOffset (imageOf e o) ∧ coffOffset (imageOf e o) < 0x40 := by
    by_contra hout
    by_cases h2 : coffOffset (imageOf e o) < 2
    · have h := getElem?_imageOf he (o := o) (r := ⟨0, dosMagic⟩) (by simp [imageRegions]) (k := coffOffset (imageOf e o)) h2
      rw [Nat.zero_add, hP] at h
      exact absurd (List.mem_of_getElem? h.symm) (by decide)
    · by_cases h24 : 24 ≤ coffOffset (imageOf e o) ∧ coffOffset (imageOf e o) < 28
      · have h := getElem?_imageOf he (o := o) (r := ⟨24, [1, 0, 0, 0]⟩) (by simp [imageRegions])
          (k := coffOffset (imageOf e o) - 24) (by simp; omega)
        rw [show 24 + (coffOffset (imageOf e o) - 24) = coffOffset (imageOf e o) by omega, hP] at h
        exact absurd (List.mem_of_getElem? h.symm) (by decide)
      · rw [imageOf_front he (by omega) (by omega) (by omega) (by omega)] at hP
        simp at hP
  have hzero : numberOfSections (imageOf e o) = 0 := by
    have h6 : (imageOf e o)[coffOffset (imageOf e o) + 6]? = some 0 :=
      imageOf_front he (by omega) (by omega) (by omega) (by omega)
    have h7 : (imageOf e o)[coffOffset (imageOf e o) + 6 + 1]? = some 0 :=
      imageOf_front he (by omega) (by omega) (by omega) (by omega)
    have hread : readAt (imageOf e o) (coffOffset (imageOf e o) + 6) 2 = [0, 0] := by
      ext1 j
      rw [readAt, List.getElem?_take, List.getElem?_drop]
      rcases j with - | - | j
      · simpa using h6
      · simpa using h7
      · simp
    rw [numberOfSections, hread]
    rfl
  rw [reading_of_pe u hmz (by omega) (by omega) hpe]
  dsimp only
  rw [take_fread (by omega), ← numberOfSections, hzero]
  rfl

theorem not_reports_imageOf_near (u : Uninitialised) (hnear : e < 256) (hother : o ≠ 224) :
    ¬ Reports u (imageOf e o) := by
  have hlen := length_imageOf (o := o) he
  have hh := peHeader_imageOf he hne ho
  have hlfanew := e_lfanew_imageOf (o := o) he hne
  have hcoff : coffOffset (imageOf e o) = e := by
    rw [coffOffset_eq (by omega), hlfanew]
  simp only [peHeader, hlfanew, Option.ite_none_right_eq_some, Option.some.injEq, PeHeader.mk.injEq, true_and] at hh
  obtain ⟨⟨hmz, -, -, hpe⟩, hcount, -⟩ := hh
  have hpe' : readAt (imageOf e o) (coffOffset (imageOf e o)) 4 = peMagic := by rw [hcoff, hpe]
  have hcount' : numberOfSections (imageOf e o) = 1 := by rw [numberOfSections, hcoff, hcount]
  rintro ⟨hcaps, hin⟩
  rw [capabilityWord_imageOf he hne ho] at hcaps
  rw [reading_of_pe u hmz (by omega) (by omega) hpe'] at hcaps hin
  dsimp only at hcaps hin
  rw [take_fread (by omega), ← numberOfSections, hcount', hcoff] at hcaps hin
  cases hfound : (peSections (imageOf e o) u e 0 1).2 with
  | none => simp [hfound] at hcaps
  | some pos =>
    rw [hfound] at hin
    dsimp only at hin
    rw [capabilitiesAt_used, List.forall_mem_append] at hin
    have hread := (peSections_used u).mp hin.1.2 0 (by omega) (by simp)
    have hname := peSections_found u hin.1.2
    rw [hfound] at hname
    simp only [List.range'_one, List.find?_cons, List.find?_nil, Nat.mul_zero, Nat.add_zero] at hname hread
    have hsym : readAt (imageOf e o) (e + 248) 8 = symbianName := by
      by_contra hno
      simp [hno] at hname
    -- the first letter of the name stands in the image once only
    have hdot : (imageOf e o)[e + 248]? = some 46 := by
      have h0 := congrArg (·[0]?) hsym
      simpa [readAt, symbianName, List.getElem?_take] using h0
    by_cases hgap : e + 248 < e + 24 + o
    · rw [imageOf_gap he (by omega) (by
        simp only [imageRegions, List.forall_mem_cons, List.not_mem_nil, false_imp_iff, implies_true, and_true,
          Region.Covers, Region.stop, dosMagic, peMagic, length_leBytes, List.length_cons, List.length_nil,
          List.length_append]
        omega)] at hdot
      simp at hdot
    · have h := getElem?_imageOf he (o := o) (r := ⟨e + 24 + o, symbianName ++ List.replicate 32 0⟩)
        (by simp [imageRegions]) (k := 224 - o) (by simp [symbianName]; omega)
      rw [show e + 24 + o + (224 - o) = e + 248 by omega, hdot] at h
      obtain ⟨k, hk⟩ : ∃ k, 224 - o = k + 1 := ⟨223 - o, by omega⟩
      rw [hk] at h
      exact absurd (List.mem_of_getElem? (l := [83, 89, 77, 66, 73, 65, 78] ++ List.replicate 32 0) (i := k) h.symm)
        (by decide)

end

/-- Locals that happen to be zero. -/
def zeroLocals : Uninitialised := ⟨0, fun _ => List.replicate 8 0, fun _ => rfl⟩

end GnuPoc.Sis
