import GnuPoc.Lib.CString
import GnuPoc.Petran.Alter

/-!
# GnuPoc.Petran.Imports — the import section and the import address table (`pe_imp.cpp`)

Three functions walk the import directory of a PE file: `CreateImportSection` collects the imports and then lays
out its section in two passes, `CopyImportAddrTable` strings the tables together, and `FixImportThunk` counts its way
to one thunk.  A pointer into the import section is the offset it points to.
-/

namespace GnuPoc.Petran

open GnuPoc.Lib

/-- The `.idata` section; its size is the `SizeOfRawData` of its header. -/
structure ImportData where
  VirtualAddress : UInt32
  data : Bytes
  size_lt : data.length < 2 ^ 32

/-- `*(TUint *)p`. -/
def peek32 (mem : Bytes) (p : ℕ) : Outcome UInt32 :=
  if p + 4 ≤ mem.length then .ok (UInt32.ofNat (ofLE (readAt mem p 4))) else .error .undefined

/-- The characters `strlen` passes over. -/
def peekString (mem : Bytes) (p : ℕ) : Outcome Bytes :=
  if 0 ∈ mem.drop p then .ok (readCString (mem.drop p)) else .error .undefined

/-- `vaoffset-VirtualAddress`. -/
def ImportData.offset (s : ImportData) (vaoffset : UInt32) : UInt32 := vaoffset - s.VirtualAddress

/-- `vflipi(0x7fffffff)`. -/
def ordinalMask : UInt32 := 0x7fffffff

/-! ### `CreateImportSection` -/

def countDlls (mem : Bytes) : ℕ → ℕ → ℕ → Outcome ℕ
  | 0, _, _ => .error .outOfFuel
  | fuel + 1, importData, n => do
    let w ← peek32 mem importData
    if w ≠ 0 then countDlls mem fuel (importData + 20) (n + 1) else .ok n

def NumberOfImportDlls (s : ImportData) : Outcome ℕ := countDlls s.data s.data.length 0 0

/-- `while (*p++)`. -/
def countImports (mem : Bytes) : ℕ → ℕ → ℕ → Outcome ℕ
  | 0, _, _ => .error .outOfFuel
  | fuel + 1, p, n => do
    let w ← peek32 mem p
    if w ≠ 0 then countImports mem fuel (p + 4) (n + 1) else .ok n

/-- `import[i][j]=(*p++)&vflipi(0x7fffffffu)`. -/
def copyImports (mem : Bytes) : ℕ → ℕ → Outcome (List UInt32)
  | 0, _ => .ok []
  | n + 1, p => do
    let w ← peek32 mem p
    let ws ← copyImports mem n (p + 4)
    .ok ((w &&& ordinalMask) :: ws)

/-- `block[i]`, `import[i]` and `name[i]`. -/
structure ImportBlock where
  iNumberOfImports : ℕ
  imports : List UInt32
  name : Bytes

/-- The pass that collects the blocks and counts the bytes.  The tables are found by words of the section. -/
def collect (s : ImportData) : ℕ → ℕ → ℕ → Outcome (List ImportBlock × ℕ)
  | 0, _, bytecount => .ok ([], bytecount)
  | i + 1, src, bytecount => do
    let vaoffset ← peek32 s.data (src + 16)
    let p := 4 * ((s.offset vaoffset).toNat / 4)
    let n ← countImports s.data s.data.length p 0
    let imports ← copyImports s.data n p
    let vaoffset ← peek32 s.data (src + 12)
    let name ← peekString s.data (s.offset vaoffset).toNat
    let (blocks, bytecount) ← collect s i (src + 20) (bytecount + 4 * n + (name.length + 1))
    .ok (⟨n, imports, name⟩ :: blocks, bytecount)

/-- The blocks and their ordinals; `iOffsetOfDllName` is what the memory of `block` held. -/
def putBlocks (heap : Heap) : List ImportBlock → Bytes → ℕ → Outcome (Bytes × ℕ)
  | [], mem, s => .ok (mem, s)
  | b :: bs, mem, s => do
    let mem ← poke mem s (heap.new 4 ++ word32 (UInt32.ofNat b.iNumberOfImports))
    let mem ← poke mem (s + 8) (b.imports.flatMap word32)
    putBlocks heap bs mem (s + 8 + 4 * b.iNumberOfImports)

/-- The names behind the blocks, and the offset of each in its block at `t`. -/
def putNames : List ImportBlock → Bytes → ℕ → ℕ → Outcome (Bytes × ℕ)
  | [], mem, _, s => .ok (mem, s)
  | b :: bs, mem, t, s => do
    let mem ← poke mem t (word32 (UInt32.ofNat s))
    let mem ← poke mem s (b.name ++ [0])
    putNames bs mem (t + 8 + 4 * b.iNumberOfImports) (s + b.name.length + 1)

/-- The section and `aSize`.  `bytecount` is a `TInt`. -/
def CreateImportSection (heap : Heap) (s : ImportData) : Outcome (Option Bytes × ℕ) := do
  let nimportdlls ← NumberOfImportDlls s
  if nimportdlls = 0 then .ok (none, 0)
  else do
    let (blocks, bytecount) ← collect s nimportdlls 0 (4 + 8 * nimportdlls)
    let bytecount := ALIGN4 bytecount
    if 2 ^ 31 ≤ bytecount then .error .undefined
    else do
      let (mem, t) ← putBlocks heap blocks (heap.new bytecount) 4
      let (mem, t) ← putNames blocks mem 4 t
      let mem ← poke mem t (List.replicate (bytecount - t) 0)
      let mem ← poke mem 0 (word32 (UInt32.ofNat bytecount))
      .ok (some mem, bytecount)

/-! ### `CopyImportAddrTable` -/

def KErrNone : ℤ := 0

def KErrGeneral : ℤ := -2

/-- `while (*p)`: the pointer behind the ordinals, unless one is imported by name. -/
def copyThunks (src : Bytes) : ℕ → ℕ → Bytes → ℕ → Outcome (Bytes × Option ℕ)
  | 0, _, _, _ => .error .outOfFuel
  | fuel + 1, p, mem, ptr => do
    let w ← peek32 src p
    if w ≠ 0 then
      if w &&& 0x80000000 = 0 then .ok (mem, none)
      else do
        let mem ← poke mem ptr (word32 (w &&& ordinalMask))
        copyThunks src fuel (p + 4) mem (ptr + 4)
    else .ok (mem, some ptr)

def copyTables (s : ImportData) : ℕ → ℕ → Bytes → ℕ → Outcome (Bytes × Option ℕ)
  | 0, _, _, _ => .error .outOfFuel
  | fuel + 1, src, mem, ptr => do
    let w ← peek32 s.data src
    if w ≠ 0 then do
      let vaoffset ← peek32 s.data (src + 16)
      let (mem, ptr') ← copyThunks s.data s.data.length (s.offset vaoffset).toNat mem ptr
      match ptr' with
      | none => .ok (mem, none)
      | some ptr => copyTables s fuel (src + 20) mem ptr
    else .ok (mem, some ptr)

/-- What stands in the memory afterwards, and the result. -/
def CopyImportAddrTable (mem : Bytes) (aPtr : ℕ) (s : ImportData) : Outcome (Bytes × ℤ) := do
  let (mem, ptr) ← copyTables s s.data.length 0 mem aPtr
  match ptr with
  | none => .ok (mem, KErrGeneral)
  | some ptr => do
    let mem ← poke mem ptr (word32 0)
    .ok (mem, KErrNone)

/-! ### `FixImportThunk` -/

def fixLoop (s : ImportData) (va : UInt32) : ℕ → ℕ → UInt32 → UInt32 → Outcome UInt32
  | 0, _, _, _ => .error .outOfFuel
  | fuel + 1, imports, iat, n =>
    if iat ≠ va then do
      let w ← peek32 s.data iat.toNat
      if w = 0 then do
        let importoffset ← peek32 s.data (imports + 20 + 16)
        fixLoop s va fuel (imports + 20) (s.offset importoffset) n
      else fixLoop s va fuel imports (iat + 4) (n + 1)
    else .ok n

def FixImportThunk (fuel : ℕ) (iTextSize : UInt32) (s : ImportData) (va : UInt32) : Outcome UInt32 := do
  let importoffset ← peek32 s.data 16
  let n ← fixLoop s va fuel 0 (s.offset importoffset) 0
  .ok (iTextSize + n * 4)

/-- The case `KImportSection` of `FixAddress`. -/
def FixImportAddress (fuel : ℕ) (iCodeBase iTextSize : UInt32) (s : ImportData) (va : UInt32) : Outcome UInt32 := do
  let va ← FixImportThunk fuel iTextSize s (s.offset va)
  .ok (va + iCodeBase)

/-! ### Reading a section back -/

def readOrdinals (sec : Bytes) : ℕ → ℕ → Outcome (List UInt32)
  | 0, _ => .ok []
  | n + 1, p => do
    let ord ← peek32 sec p
    let ords ← readOrdinals sec n (p + 4)
    .ok (ord :: ords)

/-- The blocks from `b` on, as `Dump` walks them: each DLL's name and ordinals. -/
def readBlocks (sec : Bytes) : ℕ → ℕ → Outcome (List (Bytes × List UInt32))
  | 0, _ => .ok []
  | d + 1, b => do
    let iOffsetOfDllName ← peek32 sec b
    let iNumberOfImports ← peek32 sec (b + 4)
    let dllname ← peekString sec iOffsetOfDllName.toNat
    let ords ← readOrdinals sec iNumberOfImports.toNat (b + 8)
    let rest ← readBlocks sec d (b + 8 + 4 * iNumberOfImports.toNat)
    .ok ((dllname, ords) :: rest)

/-! ### Words and strings of a block of memory -/

/-- These words stand one behind the other from `p` on. -/
def WordsAt (mem : Bytes) (p : ℕ) (ws : List UInt32) : Prop := ∀ k w, ws[k]? = some w → peek32 mem (p + 4 * k) = .ok w

/-- A string and its terminator stand at `p`. -/
def StringAt (mem : Bytes) (p : ℕ) (name : CString) : Prop := ∃ rest, mem.drop p = name.chars ++ 0 :: rest

theorem length_words (ws : List UInt32) : (ws.flatMap word32).length = 4 * ws.length := by
  induction ws with
  | nil => rfl
  | cons w ws ih =>
    rw [List.flatMap_cons, List.length_append, length_word32, ih, List.length_cons]
    omega

theorem peek32_lt {mem : Bytes} {p : ℕ} {w : UInt32} (h : peek32 mem p = .ok w) : p + 4 ≤ mem.length := by
  unfold peek32 at h
  split at h
  · assumption
  · simp at h

theorem peek32_middle (a : Bytes) (w : UInt32) (c : Bytes) : peek32 (a ++ word32 w ++ c) a.length = .ok w := by
  have hread : readAt (a ++ word32 w ++ c) a.length 4 = word32 w := by
    rw [readAt, List.append_assoc, List.drop_left]
    exact List.take_left' (length_word32 w)
  have hword : UInt32.ofNat (ofLE (word32 w)) = w := by
    rw [word32, ofLE_leBytes_of_lt w.toNat_lt, UInt32.ofNat_toNat]
  rw [peek32, if_pos (by simp only [List.length_append, length_word32]; omega), hread, hword]

theorem wordsAt_middle (a : Bytes) (ws : List UInt32) (c : Bytes) :
    WordsAt (a ++ ws.flatMap word32 ++ c) a.length ws := by
  intro k w hw
  obtain ⟨l, r, rfl, rfl⟩ : ∃ l r, ws = l ++ w :: r ∧ l.length = k := by
    obtain ⟨hk, rfl⟩ := List.getElem?_eq_some_iff.mp hw
    exact ⟨ws.take k, ws.drop (k + 1), by simp, List.length_take_of_le hk.le⟩
  have hpos : a.length + 4 * l.length = (a ++ l.flatMap word32).length := by
    rw [List.length_append, length_words]
  have hsplit : a ++ (l ++ w :: r).flatMap word32 ++ c =
      (a ++ l.flatMap word32) ++ word32 w ++ (r.flatMap word32 ++ c) := by
    simp only [List.flatMap_append, List.flatMap_cons, List.append_assoc]
  rw [hpos, hsplit, peek32_middle]

section
variable {mem : Bytes} {p : ℕ} {w : UInt32} {ws : List UInt32}

theorem WordsAt.head (h : WordsAt mem p (w :: ws)) : peek32 mem p = .ok w := h 0 w rfl

theorem WordsAt.tail (h : WordsAt mem p (w :: ws)) : WordsAt mem (p + 4) ws := by
  intro k v hv
  have := h (k + 1) v hv
  rwa [Nat.mul_add, Nat.mul_one, Nat.add_comm (4 * k), ← Nat.add_assoc] at this

theorem WordsAt.left {ws' : List UInt32} (h : WordsAt mem p (ws ++ ws')) : WordsAt mem p ws := by
  intro k v hv
  obtain ⟨hk, -⟩ := List.getElem?_eq_some_iff.mp hv
  exact h k v (by rw [List.getElem?_append_left hk, hv])

theorem WordsAt.length_le (h : WordsAt mem p (ws ++ [w])) : p + 4 * (ws.length + 1) ≤ mem.length := by
  have := peek32_lt (h ws.length w (by simp))
  omega

theorem StringAt.peekString {name : CString} (h : StringAt mem p name) : peekString mem p = .ok name.chars := by
  obtain ⟨rest, hrest⟩ := h
  rw [Petran.peekString, hrest, if_pos (by simp), readCString_append]

end

theorem stringAt_middle (a : Bytes) (name : CString) (c : Bytes) :
    StringAt (a ++ (name.chars ++ [0]) ++ c) a.length name := by
  refine ⟨c, ?_⟩
  rw [List.append_assoc, List.drop_left, List.append_assoc]
  rfl

/-! ### Import directories -/

/-- A DLL: the places of its name and of its table of thunks, each an ordinal with the high bit set. -/
structure ImportDll where
  name : CString
  nameOffset : ℕ
  table : List UInt32
  tableOffset : ℕ
  byOrdinal : ∀ w ∈ table, w &&& 0x80000000 ≠ 0

def ImportDll.ordinals (dll : ImportDll) : List UInt32 := dll.table.map (· &&& ordinalMask)

/-- The tables of two DLLs have no thunk in common. -/
def ImportDll.Apart (dll dll' : ImportDll) : Prop :=
  dll.tableOffset + 4 * dll.table.length ≤ dll'.tableOffset ∨ dll'.tableOffset + 4 * dll'.table.length ≤ dll.tableOffset

/-- The descriptor at `src` and what it points to. -/
structure ImportData.Describes (s : ImportData) (src : ℕ) (dll : ImportDll) : Prop where
  present : ∃ w, w ≠ 0 ∧ peek32 s.data src = .ok w
  namePtr : peek32 s.data (src + 12) = .ok (s.VirtualAddress + UInt32.ofNat dll.nameOffset)
  tablePtr : peek32 s.data (src + 16) = .ok (s.VirtualAddress + UInt32.ofNat dll.tableOffset)
  nameAt : StringAt s.data dll.nameOffset dll.name
  tableAt : WordsAt s.data dll.tableOffset (dll.table ++ [0])

/-- The descriptors from `src` on, and the end of the directory. -/
def ImportData.ListsFrom (s : ImportData) : ℕ → List ImportDll → Prop
  | src, [] => peek32 s.data src = .ok 0
  | src, dll :: dlls => s.Describes src dll ∧ s.ListsFrom (src + 20) dlls

/-- The section is the import directory of these DLLs. -/
structure ImportData.Lists (s : ImportData) (dlls : List ImportDll) : Prop where
  listed : s.ListsFrom 0 dlls
  apart : dlls.Pairwise ImportDll.Apart

theorem ImportDll.ne_zero (dll : ImportDll) {w : UInt32} (h : w ∈ dll.table) : w ≠ 0 := by
  rintro rfl
  exact dll.byOrdinal 0 h UInt32.zero_and

section
variable {s : ImportData} {src : ℕ} {dll : ImportDll} {dlls : List ImportDll}

theorem ImportData.offset_ofNat (s : ImportData) (n : ℕ) : s.offset (s.VirtualAddress + UInt32.ofNat n) = UInt32.ofNat n := by
  rw [offset, UInt32.add_comm, UInt32.add_sub_cancel]

theorem ImportData.offset_toNat {n : ℕ} (h : n ≤ s.data.length) :
    (s.offset (s.VirtualAddress + UInt32.ofNat n)).toNat = n := by
  have := s.size_lt
  rw [s.offset_ofNat, UInt32.toNat_ofNat', Nat.mod_eq_of_lt (by omega)]

theorem ImportData.Describes.nameOffset_le (h : s.Describes src dll) : dll.nameOffset ≤ s.data.length := by
  obtain ⟨rest, hrest⟩ := h.nameAt
  have hlen := congrArg List.length hrest
  rw [List.length_drop, List.length_append, List.length_cons] at hlen
  omega

theorem ImportData.Describes.tableOffset_le (h : s.Describes src dll) :
    dll.tableOffset + 4 * (dll.table.length + 1) ≤ s.data.length := h.tableAt.length_le

theorem ImportData.Describes.nameOffset (h : s.Describes src dll) :
    (s.offset (s.VirtualAddress + UInt32.ofNat dll.nameOffset)).toNat = dll.nameOffset :=
  offset_toNat h.nameOffset_le

theorem ImportData.Describes.tableOffset (h : s.Describes src dll) :
    (s.offset (s.VirtualAddress + UInt32.ofNat dll.tableOffset)).toNat = dll.tableOffset :=
  offset_toNat (by have := h.tableOffset_le; omega)

theorem ImportData.ListsFrom.length_le : ∀ {src : ℕ} {dlls : List ImportDll}, s.ListsFrom src dlls →
    src + 20 * dlls.length + 4 ≤ s.data.length
  | _, [], h => peek32_lt h
  | _, _ :: _, h => by
    have := h.2.length_le
    rw [List.length_cons]
    omega

theorem ImportData.ListsFrom.describes : ∀ {src : ℕ} {dlls : List ImportDll}, s.ListsFrom src dlls → dll ∈ dlls →
    ∃ src, s.Describes src dll
  | src, _ :: _, h, hmem => by
    rcases List.mem_cons.mp hmem with rfl | hmem
    · exact ⟨src, h.1⟩
    · exact h.2.describes hmem

/-! ### Collecting -/

theorem countDlls_eq : ∀ {dlls : List ImportDll} {src fuel : ℕ} (n : ℕ), s.ListsFrom src dlls → dlls.length < fuel →
    countDlls s.data fuel src n = .ok (n + dlls.length)
  | [], src, fuel, n, h, hfuel => by
    obtain ⟨fuel, rfl⟩ := Nat.exists_eq_add_one_of_ne_zero (by omega : fuel ≠ 0)
    have hend : peek32 s.data src = .ok 0 := h
    rw [countDlls, hend]
    rfl
  | dll :: dlls, src, fuel, n, h, hfuel => by
    obtain ⟨fuel, rfl⟩ := Nat.exists_eq_add_one_of_ne_zero (by omega : fuel ≠ 0)
    obtain ⟨w, hw, hpeek⟩ := h.1.present
    rw [List.length_cons] at hfuel
    rw [countDlls, hpeek, outcome_ok_bind, if_pos hw, countDlls_eq (n + 1) h.2 (by omega), List.length_cons]
    congr 1
    omega

theorem NumberOfImportDlls_eq (h : s.ListsFrom 0 dlls) : NumberOfImportDlls s = .ok dlls.length := by
  have := h.length_le
  rw [NumberOfImportDlls, countDlls_eq 0 h (by omega), Nat.zero_add]

theorem countImports_eq {mem : Bytes} : ∀ {ws : List UInt32} {p fuel : ℕ} (n : ℕ), WordsAt mem p (ws ++ [0]) →
    (∀ w ∈ ws, w ≠ 0) → ws.length < fuel → countImports mem fuel p n = .ok (n + ws.length)
  | [], p, fuel, n, h, _, hfuel => by
    obtain ⟨fuel, rfl⟩ := Nat.exists_eq_add_one_of_ne_zero (by omega : fuel ≠ 0)
    rw [countImports, h.head]
    rfl
  | w :: ws, p, fuel, n, h, hne, hfuel => by
    obtain ⟨fuel, rfl⟩ := Nat.exists_eq_add_one_of_ne_zero (by omega : fuel ≠ 0)
    rw [List.length_cons] at hfuel
    rw [countImports, WordsAt.head h, outcome_ok_bind, if_pos (hne w List.mem_cons_self),
      countImports_eq (n + 1) (WordsAt.tail h) (fun v hv => hne v (List.mem_cons_of_mem _ hv)) (by omega),
      List.length_cons]
    congr 1
    omega

theorem copyImports_eq {mem : Bytes} : ∀ {ws : List UInt32} {p : ℕ}, WordsAt mem p ws →
    copyImports mem ws.length p = .ok (ws.map (· &&& ordinalMask))
  | [], _, _ => rfl
  | w :: ws, p, h => by
    rw [List.length_cons, copyImports, h.head, outcome_ok_bind, copyImports_eq h.tail]
    rfl

def ImportDll.block (dll : ImportDll) : ImportBlock := ⟨dll.table.length, dll.ordinals, dll.name.chars⟩

/-- The ordinals and the name, in bytes. -/
def ImportDll.bytecount (dll : ImportDll) : ℕ := 4 * dll.table.length + (dll.name.chars.length + 1)

theorem collect_eq : ∀ {dlls : List ImportDll} {src : ℕ} (bytecount : ℕ), s.ListsFrom src dlls →
    (∀ dll ∈ dlls, 4 ∣ dll.tableOffset) →
    collect s dlls.length src bytecount =
      .ok (dlls.map ImportDll.block, bytecount + (dlls.map ImportDll.bytecount).sum)
  | [], _, _, _, _ => rfl
  | dll :: dlls, src, bytecount, h, haligned => by
    have htable := h.1.tableAt
    have hle := h.1.tableOffset_le
    have hp : 4 * (dll.tableOffset / 4) = dll.tableOffset := Nat.mul_div_cancel' (haligned dll List.mem_cons_self)
    have hcount : countImports s.data s.data.length dll.tableOffset 0 = .ok dll.table.length := by
      rw [countImports_eq 0 htable (fun w => dll.ne_zero) (by omega), Nat.zero_add]
    rw [List.length_cons, collect, h.1.tablePtr, outcome_ok_bind]
    simp only [h.1.tableOffset, hp, hcount, outcome_ok_bind, copyImports_eq htable.left, h.1.namePtr, h.1.nameOffset,
      h.1.nameAt.peekString]
    rw [collect_eq _ h.2 (fun d hd => haligned d (List.mem_cons_of_mem _ hd)), outcome_ok_bind, List.map_cons,
      List.map_cons, List.sum_cons, ImportDll.bytecount]
    simp only [Nat.add_assoc]
    rfl

end

/-! ### Laying out -/

/-- A block with the offset of its name. -/
def blockBytes (nameOffset : UInt32) (b : ImportBlock) : Bytes :=
  word32 nameOffset ++ word32 (UInt32.ofNat b.iNumberOfImports) ++ b.imports.flatMap word32

/-- The blocks, with the names of the DLLs from `nameOffset` on. -/
def blocksBytes : ℕ → List ImportBlock → Bytes
  | _, [] => []
  | nameOffset, b :: bs => blockBytes (UInt32.ofNat nameOffset) b ++ blocksBytes (nameOffset + b.name.length + 1) bs

/-- The blocks before the names have their places. -/
def unnamedBytes (heap : Heap) (bs : List ImportBlock) : Bytes :=
  bs.flatMap fun b => heap.new 4 ++ word32 (UInt32.ofNat b.iNumberOfImports) ++ b.imports.flatMap word32

def namesBytes (bs : List ImportBlock) : Bytes := bs.flatMap fun b => b.name ++ [0]

/-- As many ordinals as the count says. -/
def ImportBlock.Counted (b : ImportBlock) : Prop := b.imports.length = b.iNumberOfImports

theorem length_blockBytes (nameOffset : UInt32) {b : ImportBlock} (h : b.Counted) :
    (blockBytes nameOffset b).length = 8 + 4 * b.iNumberOfImports := by
  have hb : b.imports.length = b.iNumberOfImports := h
  rw [blockBytes, List.length_append, List.length_append, length_word32, length_word32, length_words, hb]

def blocksLength (bs : List ImportBlock) : ℕ := (bs.map fun b => 8 + 4 * b.iNumberOfImports).sum

def namesLength (bs : List ImportBlock) : ℕ := (bs.map fun b => b.name.length + 1).sum

theorem length_blocksBytes : ∀ {bs : List ImportBlock} (nameOffset : ℕ), (∀ b ∈ bs, b.Counted) →
    (blocksBytes nameOffset bs).length = blocksLength bs
  | [], _, _ => rfl
  | b :: bs, nameOffset, h => by
    rw [blocksBytes, List.length_append, length_blockBytes _ (h b List.mem_cons_self),
      length_blocksBytes _ fun x hx => h x (List.mem_cons_of_mem _ hx)]
    rfl

theorem length_unnamedBytes (heap : Heap) : ∀ {bs : List ImportBlock}, (∀ b ∈ bs, b.Counted) →
    (unnamedBytes heap bs).length = blocksLength bs
  | [], _ => rfl
  | b :: bs, h => by
    have hb : b.imports.length = b.iNumberOfImports := h b List.mem_cons_self
    have hcons : unnamedBytes heap (b :: bs) = heap.new 4 ++ word32 (UInt32.ofNat b.iNumberOfImports) ++
      b.imports.flatMap word32 ++ unnamedBytes heap bs := rfl
    rw [hcons, List.length_append, List.length_append, List.length_append, heap.length_new, length_word32,
      length_words, hb, length_unnamedBytes heap fun x hx => h x (List.mem_cons_of_mem _ hx)]
    rfl

theorem length_namesBytes (bs : List ImportBlock) : (namesBytes bs).length = namesLength bs := by
  simp [namesBytes, namesLength, List.length_flatMap]

theorem putBlocks_eq (heap : Heap) : ∀ {bs : List ImportBlock} {a tail : Bytes}, (∀ b ∈ bs, b.Counted) →
    blocksLength bs ≤ tail.length →
    putBlocks heap bs (a ++ tail) a.length =
      .ok (a ++ unnamedBytes heap bs ++ tail.drop (blocksLength bs), a.length + blocksLength bs)
  | [], a, tail, _, _ => by simp [putBlocks, unnamedBytes, blocksLength]
  | b :: bs, a, tail, h, hroom => by
    have hb : b.imports.length = b.iNumberOfImports := h b List.mem_cons_self
    have hroom' : 8 + 4 * b.iNumberOfImports + blocksLength bs ≤ tail.length := hroom
    set head := heap.new 4 ++ word32 (UInt32.ofNat b.iNumberOfImports) with hhead
    have hlen : head.length = 8 := by rw [hhead, List.length_append, heap.length_new, length_word32]
    have hords : (b.imports.flatMap word32).length = 4 * b.iNumberOfImports := by rw [length_words, hb]
    have hpos : a.length + 8 = (a ++ head).length := by rw [List.length_append, hlen]
    have hnext : (a ++ head).length + 4 * b.iNumberOfImports = (a ++ head ++ b.imports.flatMap word32).length := by
      rw [← hords]
      exact List.length_append.symm
    rw [putBlocks, ← hhead, poke_front (by omega), outcome_ok_bind, hpos, poke_front (by rw [List.length_drop]; omega),
      outcome_ok_bind, hnext, putBlocks_eq heap (fun x hx => h x (List.mem_cons_of_mem _ hx))
        (by simp only [List.length_drop, hlen, hords]; omega)]
    have hcons : unnamedBytes heap (b :: bs) = head ++ b.imports.flatMap word32 ++ unnamedBytes heap bs := rfl
    have hsum : blocksLength (b :: bs) = 8 + 4 * b.iNumberOfImports + blocksLength bs := rfl
    rw [hcons, hsum, List.drop_drop, List.drop_drop, hlen, hords]
    simp only [List.append_assoc, List.length_append, hlen, hords, Nat.add_assoc]

theorem putNames_eq (heap : Heap) : ∀ {bs : List ImportBlock} {a names tail : Bytes}, (∀ b ∈ bs, b.Counted) →
    namesLength bs ≤ tail.length →
    putNames bs (a ++ unnamedBytes heap bs ++ names ++ tail) a.length (a ++ unnamedBytes heap bs ++ names).length =
      .ok (a ++ blocksBytes (a ++ unnamedBytes heap bs ++ names).length bs ++ names ++ namesBytes bs ++
        tail.drop (namesLength bs), (a ++ unnamedBytes heap bs ++ names).length + namesLength bs)
  | [], a, names, tail, _, _ => by simp [putNames, blocksBytes, namesBytes, namesLength, unnamedBytes]
  | b :: bs, a, names, tail, h, hroom => by
    have hcounted := h b List.mem_cons_self
    have hroom' : b.name.length + 1 + namesLength bs ≤ tail.length := hroom
    obtain ⟨s, hs⟩ : ∃ s, (a ++ unnamedBytes heap (b :: bs) ++ names).length = s := ⟨_, rfl⟩
    set rest := word32 (UInt32.ofNat b.iNumberOfImports) ++ b.imports.flatMap word32 with hrest
    have hblock : word32 (UInt32.ofNat s) ++ rest = blockBytes (UInt32.ofNat s) b := by
      rw [hrest, blockBytes, List.append_assoc]
    have hunnamed : unnamedBytes heap (b :: bs) = heap.new 4 ++ (rest ++ unnamedBytes heap bs) := by
      rw [hrest]
      simp only [unnamedBytes, List.flatMap_cons, List.append_assoc]
    have hfirst : poke (a ++ unnamedBytes heap (b :: bs) ++ names ++ tail) a.length (word32 (UInt32.ofNat s)) =
        .ok (a ++ blockBytes (UInt32.ofNat s) b ++ unnamedBytes heap bs ++ names ++ tail) := by
      have heq : a ++ unnamedBytes heap (b :: bs) ++ names ++ tail =
          a ++ heap.new 4 ++ (rest ++ unnamedBytes heap bs ++ names ++ tail) := by
        rw [hunnamed]
        simp only [List.append_assoc]
      rw [heq, poke_middle _ (by rw [length_word32, heap.length_new]), ← hblock]
      simp only [List.append_assoc]
    have hs' : s = (a ++ blockBytes (UInt32.ofNat s) b ++ unnamedBytes heap bs ++ names).length := by
      have hlen := congrArg List.length hblock
      have hlen' := congrArg List.length hunnamed
      simp only [List.length_append, length_word32, heap.length_new] at hlen hlen'
      apply hs.symm.trans
      simp only [List.length_append] at hlen' ⊢
      omega
    have hsecond : poke (a ++ blockBytes (UInt32.ofNat s) b ++ unnamedBytes heap bs ++ names ++ tail) s (b.name ++ [0]) =
        .ok ((a ++ blockBytes (UInt32.ofNat s) b) ++ unnamedBytes heap bs ++ (names ++ (b.name ++ [0])) ++
          tail.drop (b.name.length + 1)) := by
      nth_rewrite 2 [hs']
      rw [poke_front (by rw [List.length_append, List.length_singleton]; omega)]
      simp only [List.append_assoc, List.length_append, List.length_singleton]
    have hpos : a.length + 8 + 4 * b.iNumberOfImports = (a ++ blockBytes (UInt32.ofNat s) b).length := by
      rw [List.length_append, length_blockBytes _ hcounted, Nat.add_assoc]
    have hend : s + b.name.length + 1 =
        (a ++ blockBytes (UInt32.ofNat s) b ++ unnamedBytes heap bs ++ (names ++ (b.name ++ [0]))).length := by
      have hlen := hs'
      simp only [List.length_append, List.length_singleton] at hlen ⊢
      omega
    have hsum : namesLength (b :: bs) = b.name.length + 1 + namesLength bs := rfl
    have hnames : namesBytes (b :: bs) = b.name ++ [0] ++ namesBytes bs := rfl
    rw [hs, putNames, hfirst, outcome_ok_bind, hsecond, outcome_ok_bind, hpos, hend,
      putNames_eq heap (fun x hx => h x (List.mem_cons_of_mem _ hx)) (by rw [List.length_drop]; omega), ← hend,
      blocksBytes, List.drop_drop, hsum, hnames]
    simp only [List.append_assoc, Nat.add_assoc]

/-! ### The section -/

/-- `bytecount` before it is rounded. -/
def unpaddedSize (dlls : List ImportDll) : ℕ := 4 + 8 * dlls.length + (dlls.map ImportDll.bytecount).sum

/-- The size of the import section. -/
def importSectionSize (dlls : List ImportDll) : ℕ := ALIGN4 (unpaddedSize dlls)

theorem ImportDll.length_ordinals (dll : ImportDll) : dll.ordinals.length = dll.table.length := List.length_map ..

theorem ImportDll.block_counted (dll : ImportDll) : dll.block.Counted := dll.length_ordinals

theorem ImportDll.counted {dlls : List ImportDll} : ∀ b ∈ dlls.map ImportDll.block, b.Counted := by
  intro b hb
  obtain ⟨dll, -, rfl⟩ := List.mem_map.mp hb
  exact dll.block_counted

/-- The section in its parts. -/
def importSection (dlls : List ImportDll) : Bytes :=
  let blocks := dlls.map ImportDll.block
  word32 (UInt32.ofNat (importSectionSize dlls)) ++ blocksBytes (4 + blocksLength blocks) blocks ++ namesBytes blocks ++
    List.replicate (importSectionSize dlls - unpaddedSize dlls) 0

theorem unpaddedSize_eq (dlls : List ImportDll) : unpaddedSize dlls =
    4 + blocksLength (dlls.map ImportDll.block) + namesLength (dlls.map ImportDll.block) := by
  unfold unpaddedSize
  induction dlls with
  | nil => rfl
  | cons dll dlls ih =>
    have hblocks : blocksLength ((dll :: dlls).map ImportDll.block) =
        8 + 4 * dll.table.length + blocksLength (dlls.map ImportDll.block) := rfl
    have hnames : namesLength ((dll :: dlls).map ImportDll.block) =
        dll.name.chars.length + 1 + namesLength (dlls.map ImportDll.block) := rfl
    rw [hblocks, hnames, List.length_cons, List.map_cons, List.sum_cons, ImportDll.bytecount]
    omega

theorem le_ALIGN4 (n : ℕ) : n ≤ ALIGN4 n ∧ ALIGN4 n < n + 4 ∧ ALIGN4 n % 4 = 0 := by
  unfold ALIGN4
  omega

theorem length_importSection (dlls : List ImportDll) : (importSection dlls).length = importSectionSize dlls := by
  have hle := (le_ALIGN4 (unpaddedSize dlls)).1
  have hsize := unpaddedSize_eq dlls
  simp only [importSection, List.length_append, length_word32, length_blocksBytes _ ImportDll.counted,
    length_namesBytes, List.length_replicate]
  unfold importSectionSize
  omega

section
variable {s : ImportData} {dlls : List ImportDll}

/-- Of aligned tables, the section is built as it should be. -/
theorem CreateImportSection_eq (heap : Heap) (h : s.ListsFrom 0 dlls) (hne : dlls ≠ [])
    (haligned : ∀ dll ∈ dlls, 4 ∣ dll.tableOffset) (hsize : importSectionSize dlls < 2 ^ 31) :
    CreateImportSection heap s = .ok (some (importSection dlls), importSectionSize dlls) := by
  have hlen : dlls.length ≠ 0 := fun h => hne (List.length_eq_zero_iff.mp h)
  have hle := (le_ALIGN4 (unpaddedSize dlls)).1
  have hcollect := collect_eq (4 + 8 * dlls.length) h haligned
  have hunpadded := unpaddedSize_eq dlls
  set blocks := dlls.map ImportDll.block with hblocks
  have hcounted : ∀ b ∈ blocks, b.Counted := ImportDll.counted
  -- the block of memory: the size field, the blocks, the names, and the padding
  obtain ⟨head, tail, hhead, hmem⟩ : ∃ head tail : Bytes, head.length = 4 ∧
      heap.new (importSectionSize dlls) = head ++ tail := by
    refine ⟨_, _, ?_, (List.take_append_drop 4 _).symm⟩
    rw [List.length_take, heap.length_new]
    unfold importSectionSize
    omega
  have htail : tail.length = importSectionSize dlls - 4 := by
    have := congrArg List.length hmem
    rw [heap.length_new, List.length_append, hhead] at this
    omega
  have hfit : 4 + blocksLength blocks + namesLength blocks ≤ importSectionSize dlls := by
    rw [← hunpadded]
    exact hle
  have hfirst : putBlocks heap blocks (heap.new (importSectionSize dlls)) 4 = .ok (head ++ unnamedBytes heap blocks ++
      tail.drop (blocksLength blocks), 4 + blocksLength blocks) := by
    rw [hmem, ← hhead]
    exact putBlocks_eq heap hcounted (by omega)
  have hat : (head ++ unnamedBytes heap blocks ++ []).length = 4 + blocksLength blocks := by
    rw [List.append_nil, List.length_append, hhead, length_unnamedBytes heap hcounted]
  have hsecond := @putNames_eq heap blocks head [] (tail.drop (blocksLength blocks)) hcounted
    (by rw [List.length_drop]; omega)
  rw [hat, hhead, List.append_nil, List.append_nil, List.drop_drop] at hsecond
  have hrest : (tail.drop (blocksLength blocks + namesLength blocks)).length = importSectionSize dlls - unpaddedSize dlls := by
    rw [List.length_drop]
    omega
  have hthird : poke (head ++ blocksBytes (4 + blocksLength blocks) blocks ++ namesBytes blocks ++
      tail.drop (blocksLength blocks + namesLength blocks)) (4 + blocksLength blocks + namesLength blocks)
      (List.replicate (importSectionSize dlls - (4 + blocksLength blocks + namesLength blocks)) 0) =
      .ok (head ++ (blocksBytes (4 + blocksLength blocks) blocks ++ namesBytes blocks ++
        List.replicate (importSectionSize dlls - unpaddedSize dlls) 0)) := by
    have hpos : 4 + blocksLength blocks + namesLength blocks =
        (head ++ blocksBytes (4 + blocksLength blocks) blocks ++ namesBytes blocks).length := by
      rw [List.length_append, List.length_append, hhead, length_blocksBytes _ hcounted, length_namesBytes]
    rw [← hunpadded]
    rw [← hunpadded] at hpos
    rw [hpos, poke_front (by rw [hrest, List.length_replicate, ← hpos]), ← hpos,
      List.drop_eq_nil_of_le (by rw [hrest, List.length_replicate]), List.append_nil]
    simp only [List.append_assoc]
  have hfourth := @poke_middle [] head (word32 (UInt32.ofNat (importSectionSize dlls)))
    (blocksBytes (4 + blocksLength blocks) blocks ++ namesBytes blocks ++
      List.replicate (importSectionSize dlls - unpaddedSize dlls) 0) (by rw [hhead, length_word32])
  rw [List.nil_append, List.nil_append, List.length_nil] at hfourth
  rw [CreateImportSection, NumberOfImportDlls_eq h, outcome_ok_bind, if_neg hlen, hcollect, outcome_ok_bind]
  show (if 2 ^ 31 ≤ importSectionSize dlls then _ else _) = _
  rw [if_neg (by omega)]
  show (putBlocks heap blocks (heap.new (importSectionSize dlls)) 4 >>= _) = _
  rw [hfirst, outcome_ok_bind]
  show (putNames blocks (head ++ unnamedBytes heap blocks ++ tail.drop (blocksLength blocks)) 4
    (4 + blocksLength blocks) >>= _) = _
  rw [hsecond, outcome_ok_bind]
  show (poke _ _ (List.replicate (importSectionSize dlls - (4 + blocksLength blocks + namesLength blocks)) 0) >>= _) = _
  rw [hthird, outcome_ok_bind]
  show (poke _ 0 (word32 (UInt32.ofNat (importSectionSize dlls))) >>= _) = _
  rw [hfourth, outcome_ok_bind]
  show _ = Except.ok (some (word32 (UInt32.ofNat (importSectionSize dlls)) ++ blocksBytes (4 + blocksLength blocks) blocks ++
    namesBytes blocks ++ List.replicate (importSectionSize dlls - unpaddedSize dlls) 0), importSectionSize dlls)
  simp only [List.append_assoc]
  rfl

end

/-! ### Reading it back -/

theorem readOrdinals_eq {sec : Bytes} : ∀ {ws : List UInt32} {p : ℕ}, WordsAt sec p ws →
    readOrdinals sec ws.length p = .ok ws
  | [], _, _ => rfl
  | w :: ws, p, h => by
    rw [List.length_cons, readOrdinals, h.head, outcome_ok_bind, readOrdinals_eq h.tail]
    rfl

/-- What a reader is to find of a DLL. -/
def ImportDll.entry (dll : ImportDll) : Bytes × List UInt32 := (dll.name.chars, dll.ordinals)

theorem readBlock_eq {sec a c : Bytes} {nameOffset : ℕ} {dll : ImportDll}
    (hsec : sec = a ++ blockBytes (UInt32.ofNat nameOffset) dll.block ++ c) (hlt : sec.length < 2 ^ 32)
    (hname : StringAt sec nameOffset dll.name) (hle : nameOffset ≤ sec.length) (d : ℕ) :
    readBlocks sec (d + 1) a.length = readBlocks sec d (a.length + (8 + 4 * dll.table.length)) >>= fun rest =>
      .ok (dll.entry :: rest) := by
  have hords := dll.length_ordinals
  have hoffset : peek32 sec a.length = .ok (UInt32.ofNat nameOffset) := by
    have heq : sec = a ++ word32 (UInt32.ofNat nameOffset) ++
        (word32 (UInt32.ofNat dll.table.length) ++ dll.ordinals.flatMap word32 ++ c) := by
      rw [hsec, blockBytes]
      simp only [List.append_assoc]
      rfl
    rw [heq]
    exact peek32_middle ..
  have hcount : peek32 sec (a.length + 4) = .ok (UInt32.ofNat dll.table.length) := by
    have hpos : a.length + 4 = (a ++ word32 (UInt32.ofNat nameOffset)).length := by
      rw [List.length_append, length_word32]
    have heq : sec = (a ++ word32 (UInt32.ofNat nameOffset)) ++ word32 (UInt32.ofNat dll.table.length) ++
        (dll.ordinals.flatMap word32 ++ c) := by
      rw [hsec, blockBytes]
      simp only [List.append_assoc]
      rfl
    rw [hpos, heq]
    exact peek32_middle ..
  have hwords : WordsAt sec (a.length + 8) dll.ordinals := by
    have hpos : a.length + 8 = (a ++ word32 (UInt32.ofNat nameOffset) ++ word32 (UInt32.ofNat dll.table.length)).length := by
      rw [List.length_append, List.length_append, length_word32, length_word32]
    have heq : sec = (a ++ word32 (UInt32.ofNat nameOffset) ++ word32 (UInt32.ofNat dll.table.length)) ++
        dll.ordinals.flatMap word32 ++ c := by
      rw [hsec, blockBytes]
      simp only [List.append_assoc]
      rfl
    rw [hpos, heq]
    exact wordsAt_middle _ _ _
  have hlen : dll.table.length < 2 ^ 32 := by
    have h := congrArg List.length hsec
    rw [List.length_append, List.length_append, length_blockBytes _ dll.block_counted] at h
    have hblock : dll.block.iNumberOfImports = dll.table.length := rfl
    omega
  have hcountNat : (UInt32.ofNat dll.table.length).toNat = dll.table.length := by
    rw [UInt32.toNat_ofNat', Nat.mod_eq_of_lt hlen]
  have hoffsetNat : (UInt32.ofNat nameOffset).toNat = nameOffset := by
    rw [UInt32.toNat_ofNat', Nat.mod_eq_of_lt (by omega)]
  have hread := readOrdinals_eq hwords
  rw [hords] at hread
  rw [readBlocks, hoffset, outcome_ok_bind, hcount, outcome_ok_bind, hoffsetNat, hname.peekString, outcome_ok_bind,
    hcountNat, hread, outcome_ok_bind, Nat.add_assoc]
  rfl

/-- The blocks are read back as the DLLs. -/
theorem readBlocks_eq {sec c c' : Bytes} (hlt : sec.length < 2 ^ 32) : ∀ {dlls : List ImportDll} {a b : Bytes},
    sec = a ++ blocksBytes b.length (dlls.map ImportDll.block) ++ c →
    sec = b ++ namesBytes (dlls.map ImportDll.block) ++ c' →
    readBlocks sec dlls.length a.length = .ok (dlls.map ImportDll.entry)
  | [], _, _, _, _ => rfl
  | dll :: dlls, a, b, hblocks, hnames => by
    have hblocks' : sec = a ++ blockBytes (UInt32.ofNat b.length) dll.block ++
        (blocksBytes (b ++ (dll.name.chars ++ [0])).length (dlls.map ImportDll.block) ++ c) := by
      have hlen : (b ++ (dll.name.chars ++ [0])).length = b.length + dll.block.name.length + 1 := by
        rw [List.length_append, List.length_append, List.length_singleton, ← Nat.add_assoc]
        rfl
      rw [hblocks, hlen, List.map_cons, blocksBytes]
      simp only [List.append_assoc]
    have hnames' : sec = b ++ (dll.name.chars ++ [0]) ++ (namesBytes (dlls.map ImportDll.block) ++ c') := by
      have hcons : namesBytes ((dll :: dlls).map ImportDll.block) =
        dll.name.chars ++ [0] ++ namesBytes (dlls.map ImportDll.block) := rfl
      rw [hnames, hcons]
      simp only [List.append_assoc]
    have hname : StringAt sec b.length dll.name := by
      rw [hnames']
      exact stringAt_middle ..
    have hle : b.length ≤ sec.length := by
      rw [hnames', List.length_append, List.length_append]
      omega
    have hpos : a.length + (8 + 4 * dll.table.length) = (a ++ blockBytes (UInt32.ofNat b.length) dll.block).length := by
      rw [List.length_append, length_blockBytes _ dll.block_counted]
      rfl
    rw [← List.append_assoc] at hblocks' hnames'
    rw [List.length_cons, readBlock_eq (by rw [hblocks', List.append_assoc]) hlt hname hle, hpos, readBlocks_eq hlt
      hblocks' hnames']
    rfl

theorem readBlocks_importSection {dlls : List ImportDll} (hsize : importSectionSize dlls < 2 ^ 31) :
    readBlocks (importSection dlls) dlls.length 4 = .ok (dlls.map ImportDll.entry) := by
  set blocks := dlls.map ImportDll.block with hblocks
  set size := word32 (UInt32.ofNat (importSectionSize dlls)) with hsz
  set zeros := List.replicate (importSectionSize dlls - unpaddedSize dlls) (0 : UInt8) with hzeros
  have hlen : (size ++ blocksBytes (4 + blocksLength blocks) blocks).length = 4 + blocksLength blocks := by
    rw [List.length_append, length_blocksBytes _ ImportDll.counted, hsz, length_word32]
  have hsec : importSection dlls = size ++ blocksBytes (4 + blocksLength blocks) blocks ++ namesBytes blocks ++ zeros := rfl
  have hpos : 4 = size.length := by rw [hsz, length_word32]
  rw [hpos]
  have hfirst : importSection dlls = size ++ blocksBytes (size ++ blocksBytes (4 + blocksLength blocks) blocks).length
      blocks ++ (namesBytes blocks ++ zeros) := by
    rw [hlen, hsec, List.append_assoc _ (namesBytes blocks)]
  exact readBlocks_eq (by rw [length_importSection]; omega) hfirst hsec

/-! ### The import address table -/

section
variable {s : ImportData}

theorem copyThunks_eq {src : Bytes} : ∀ {ws : List UInt32} {p fuel : ℕ} {a tail : Bytes}, WordsAt src p (ws ++ [0]) →
    (∀ w ∈ ws, w &&& 0x80000000 ≠ 0) → ws.length < fuel → 4 * ws.length ≤ tail.length →
    copyThunks src fuel p (a ++ tail) a.length =
      .ok (a ++ (ws.map (· &&& ordinalMask)).flatMap word32 ++ tail.drop (4 * ws.length), some (a.length + 4 * ws.length))
  | [], p, fuel, a, tail, h, _, hfuel, _ => by
    obtain ⟨fuel, rfl⟩ := Nat.exists_eq_add_one_of_ne_zero (by omega : fuel ≠ 0)
    rw [copyThunks, WordsAt.head h]
    simp
  | w :: ws, p, fuel, a, tail, h, hhigh, hfuel, hroom => by
    obtain ⟨fuel, rfl⟩ := Nat.exists_eq_add_one_of_ne_zero (by omega : fuel ≠ 0)
    rw [List.length_cons] at hfuel hroom
    have hw := hhigh w List.mem_cons_self
    have hne : w ≠ 0 := by
      rintro rfl
      exact hw UInt32.zero_and
    have hlen : (word32 (w &&& ordinalMask)).length = 4 := length_word32 _
    have hpos : a.length + 4 = (a ++ word32 (w &&& ordinalMask)).length := by rw [List.length_append, hlen]
    rw [copyThunks, WordsAt.head h, outcome_ok_bind, if_pos hne, if_neg hw, poke_front (by omega), outcome_ok_bind, hpos,
      copyThunks_eq (WordsAt.tail h) (fun v hv => hhigh v (List.mem_cons_of_mem _ hv)) (by omega)
        (by rw [List.length_drop]; omega), List.drop_drop, hlen, List.length_append, hlen, List.length_cons,
      List.map_cons, List.flatMap_cons]
    simp only [List.append_assoc, Nat.add_assoc, Nat.mul_add, Nat.mul_one, Nat.add_comm 4]

/-- The words of the table, without the terminator. -/
def allOrdinals (dlls : List ImportDll) : List UInt32 := dlls.flatMap ImportDll.ordinals

/-- The ordinals are copied in the order of the DLLs. -/
theorem copyTables_eq : ∀ {dlls : List ImportDll} {src fuel : ℕ} {a tail : Bytes}, s.ListsFrom src dlls →
    dlls.length < fuel → 4 * (allOrdinals dlls).length ≤ tail.length →
    copyTables s fuel src (a ++ tail) a.length = .ok (a ++ (allOrdinals dlls).flatMap word32 ++
      tail.drop (4 * (allOrdinals dlls).length), some (a.length + 4 * (allOrdinals dlls).length))
  | [], src, fuel, a, tail, h, hfuel, _ => by
    obtain ⟨fuel, rfl⟩ := Nat.exists_eq_add_one_of_ne_zero (by omega : fuel ≠ 0)
    have hend : peek32 s.data src = .ok 0 := h
    rw [copyTables, hend]
    simp [allOrdinals]
  | dll :: dlls, src, fuel, a, tail, h, hfuel, hroom => by
    obtain ⟨fuel, rfl⟩ := Nat.exists_eq_add_one_of_ne_zero (by omega : fuel ≠ 0)
    obtain ⟨w, hw, hpeek⟩ := h.1.present
    have hle := h.1.tableOffset_le
    have hall : allOrdinals (dll :: dlls) = dll.ordinals ++ allOrdinals dlls := List.flatMap_cons
    have hords := dll.length_ordinals
    rw [hall, List.length_append, hords] at hroom
    rw [List.length_cons] at hfuel
    have hthunks := @copyThunks_eq _ _ _ _ a tail h.1.tableAt dll.byOrdinal (show _ < s.data.length by omega) (by omega)
    have hpos : a.length + 4 * dll.table.length = (a ++ dll.ordinals.flatMap word32).length := by
      rw [List.length_append, length_words, hords]
    rw [copyTables, hpeek, outcome_ok_bind, if_pos hw, h.1.tablePtr, outcome_ok_bind, h.1.tableOffset, hthunks,
      outcome_ok_bind]
    show copyTables s fuel (src + 20) (a ++ dll.ordinals.flatMap word32 ++ tail.drop (4 * dll.table.length))
      (a.length + 4 * dll.table.length) = _
    rw [hpos, copyTables_eq h.2 (by omega) (by rw [List.length_drop]; omega), ← hpos, hall, List.flatMap_append,
      List.length_append, hords, List.drop_drop]
    simp only [List.append_assoc, Nat.add_assoc, Nat.mul_add]

/-- The import address table: the ordinals of all DLLs and the terminator. -/
def importAddrTable (dlls : List ImportDll) : Bytes := (allOrdinals dlls).flatMap word32 ++ word32 0

theorem CopyImportAddrTable_eq {dlls : List ImportDll} {a tail : Bytes} (h : s.ListsFrom 0 dlls)
    (hroom : (importAddrTable dlls).length ≤ tail.length) :
    CopyImportAddrTable (a ++ tail) a.length s =
      .ok (a ++ importAddrTable dlls ++ tail.drop (importAddrTable dlls).length, KErrNone) := by
  have hle := h.length_le
  have hlen : (importAddrTable dlls).length = 4 * (allOrdinals dlls).length + 4 := by
    rw [importAddrTable, List.length_append, length_words, length_word32]
  rw [hlen] at hroom
  have hpos : a.length + 4 * (allOrdinals dlls).length = (a ++ (allOrdinals dlls).flatMap word32).length := by
    rw [List.length_append, length_words]
  rw [CopyImportAddrTable, copyTables_eq h (by omega) (by omega), outcome_ok_bind]
  show (poke _ (a.length + 4 * (allOrdinals dlls).length) (word32 0) >>= _) = _
  rw [hpos, poke_front (by rw [length_word32, List.length_drop]; omega), outcome_ok_bind, List.drop_drop, length_word32,
    hlen, importAddrTable]
  simp only [List.append_assoc]

/-! ### Thunks -/

theorem fixLoop_step {va iat n : UInt32} {w : UInt32} {fuel imports : ℕ} (hne : iat ≠ va)
    (hpeek : peek32 s.data iat.toNat = .ok w) (hw : w ≠ 0) :
    fixLoop s va (fuel + 1) imports iat n = fixLoop s va fuel imports (iat + 4) (n + 1) := by
  rw [fixLoop, if_pos hne, hpeek, outcome_ok_bind, if_neg hw]

theorem fixLoop_thunks {va : UInt32} {imports : ℕ} : ∀ {ws : List UInt32} {p fuel : ℕ} (n : UInt32),
    WordsAt s.data p ws → (∀ w ∈ ws, w ≠ 0) → (∀ k < ws.length, UInt32.ofNat (p + 4 * k) ≠ va) →
    fixLoop s va (fuel + ws.length) imports (UInt32.ofNat p) n =
      fixLoop s va fuel imports (UInt32.ofNat (p + 4 * ws.length)) (n + UInt32.ofNat ws.length)
  | [], _, _, n, _, _, _ => by simp
  | w :: ws, p, fuel, n, h, hne, hva => by
    have hlt := s.size_lt
    have hp := peek32_lt h.head
    have hnat : (UInt32.ofNat p).toNat = p := by rw [UInt32.toNat_ofNat', Nat.mod_eq_of_lt (by omega)]
    have hnext : UInt32.ofNat p + 4 = UInt32.ofNat (p + 4) := by rw [UInt32.ofNat_add]; rfl
    have hcount : n + 1 + UInt32.ofNat ws.length = n + UInt32.ofNat (ws.length + 1) := by
      rw [UInt32.ofNat_add, UInt32.add_assoc, UInt32.add_comm 1]
      rfl
    rw [List.length_cons, ← Nat.add_assoc, fixLoop_step (by simpa using hva 0 (by simp)) (by rw [hnat]; exact h.head)
      (hne w List.mem_cons_self), hnext, fixLoop_thunks (n + 1) h.tail (fun v hv => hne v (List.mem_cons_of_mem _ hv))
        (fun k hk => ?_), hcount]
    · congr 2
      omega
    · have := hva (k + 1) (by rw [List.length_cons]; omega)
      rwa [Nat.mul_add, Nat.mul_one, Nat.add_comm (4 * k), ← Nat.add_assoc] at this

/-- The steps over the tables of these DLLs. -/
def tableSteps (dlls : List ImportDll) : ℕ := (dlls.map fun dll => dll.table.length + 1).sum

theorem ofNat_ne {p q : ℕ} (hp : p < 2 ^ 32) (hq : q < 2 ^ 32) (h : p ≠ q) : UInt32.ofNat p ≠ UInt32.ofNat q := by
  intro heq
  have := congrArg UInt32.toNat heq
  rw [UInt32.toNat_ofNat', UInt32.toNat_ofNat', Nat.mod_eq_of_lt hp, Nat.mod_eq_of_lt hq] at this
  exact h this

theorem ImportData.Describes.apart {src src' j : ℕ} {d dll : ImportDll} (h : s.Describes src d)
    (h' : s.Describes src' dll) (hapart : d.Apart dll) (hj : j < dll.table.length) {k : ℕ} (hk : k ≤ d.table.length) :
    d.tableOffset + 4 * k ≠ dll.tableOffset + 4 * j := by
  intro heq
  rcases Nat.lt_or_eq_of_le hk with hk | rfl
  · rcases hapart with hle | hle
    all_goals omega
  · have hend : peek32 s.data (d.tableOffset + 4 * d.table.length) = .ok 0 := h.tableAt _ 0 (by simp)
    have hthunk := h'.tableAt.left j _ (List.getElem?_eq_getElem hj)
    rw [← heq, hend] at hthunk
    exact dll.ne_zero (List.getElem_mem hj) (Except.ok.inj hthunk).symm

/-- From the table of the first of these DLLs to the `j`-th thunk of `dll`. -/
theorem fixLoop_eq {dll : ImportDll} {post : List ImportDll} {j : ℕ} (hj : j < dll.table.length) :
    ∀ {pre : List ImportDll} {imports fuel : ℕ} (n : UInt32) {first : ImportDll}, s.ListsFrom imports (pre ++ dll :: post) →
    (∀ d ∈ pre, d.Apart dll) → tableSteps pre + j < fuel → (pre ++ dll :: post).head? = some first →
    fixLoop s (UInt32.ofNat (dll.tableOffset + 4 * j)) fuel imports (UInt32.ofNat first.tableOffset) n =
      .ok (n + UInt32.ofNat ((allOrdinals pre).length + j))
  | [], imports, fuel, n, first, h, _, hfuel, hfirst => by
    obtain rfl : dll = first := Option.some.inj hfirst
    have hsteps : tableSteps [] = 0 := rfl
    obtain ⟨fuel, rfl⟩ : ∃ f, fuel = f + 1 + j := ⟨fuel - 1 - j, by omega⟩
    have hle := h.1.tableOffset_le
    have hlt := s.size_lt
    have hlen : (dll.table.take j).length = j := List.length_take_of_le hj.le
    have hwords : WordsAt s.data dll.tableOffset (dll.table.take j) := by
      have := h.1.tableAt.left
      rw [← List.take_append_drop j dll.table] at this
      exact this.left
    have hwalk := @fixLoop_thunks _ (UInt32.ofNat (dll.tableOffset + 4 * j)) imports _ _ (fuel + 1) n hwords
      (fun w hw => dll.ne_zero (List.mem_of_mem_take hw))
      (fun k hk => ofNat_ne (by omega) (by omega) (by omega))
    rw [hlen] at hwalk
    rw [hwalk, fixLoop, if_neg (by simp)]
    simp [allOrdinals]
  | d :: pre, imports, fuel, n, first, h, hapart, hfuel, hfirst => by
    obtain rfl : d = first := Option.some.inj hfirst
    have hsteps : tableSteps (d :: pre) = d.table.length + 1 + tableSteps pre := rfl
    obtain ⟨fuel, rfl⟩ : ∃ f, fuel = f + 1 + d.table.length := ⟨fuel - 1 - d.table.length, by omega⟩
    obtain ⟨imports', hdll⟩ := h.2.describes (List.mem_append_right _ List.mem_cons_self)
    have hle := h.1.tableOffset_le
    have hle' := hdll.tableOffset_le
    have hlt := s.size_lt
    have hne : ∀ k ≤ d.table.length, UInt32.ofNat (d.tableOffset + 4 * k) ≠ UInt32.ofNat (dll.tableOffset + 4 * j) :=
      fun k hk => ofNat_ne (by omega) (by omega) (h.1.apart hdll (hapart d List.mem_cons_self) hj hk)
    have hend : peek32 s.data (UInt32.ofNat (d.tableOffset + 4 * d.table.length)).toNat = .ok 0 := by
      rw [UInt32.toNat_ofNat', Nat.mod_eq_of_lt (by omega)]
      exact h.1.tableAt _ 0 (by simp)
    obtain ⟨next, hnext, hptr⟩ : ∃ next, (pre ++ dll :: post).head? = some next ∧
        peek32 s.data (imports + 20 + 16) = .ok (s.VirtualAddress + UInt32.ofNat next.tableOffset) := by
      obtain ⟨next, rest, hrest⟩ := List.exists_cons_of_ne_nil (show pre ++ dll :: post ≠ [] by simp)
      have htail : s.ListsFrom (imports + 20) (pre ++ dll :: post) := h.2
      rw [hrest] at htail ⊢
      exact ⟨next, rfl, htail.1.tablePtr⟩
    have hall : (allOrdinals (d :: pre)).length = d.table.length + (allOrdinals pre).length := by
      rw [allOrdinals, List.flatMap_cons, List.length_append, d.length_ordinals]
      rfl
    rw [fixLoop_thunks n h.1.tableAt.left (fun w => d.ne_zero) (fun k hk => hne k hk.le), fixLoop,
      if_pos (hne _ le_rfl), hend, outcome_ok_bind, if_pos rfl, hptr, outcome_ok_bind, s.offset_ofNat,
      fixLoop_eq hj _ h.2 (fun x hx => hapart x (List.mem_cons_of_mem _ hx)) (by omega) hnext, hall, UInt32.add_assoc,
      ← UInt32.ofNat_add, Nat.add_assoc]

/-- Where the `j`-th import of the `i`-th DLL stands among all imports. -/
def importIndex (dlls : List ImportDll) (i j : ℕ) : ℕ := (allOrdinals (dlls.take i)).length + j

theorem allOrdinals_importIndex {dlls : List ImportDll} {i j : ℕ} {dll : ImportDll} {w : UInt32}
    (hi : dlls[i]? = some dll) (hj : dll.table[j]? = some w) :
    (allOrdinals dlls)[importIndex dlls i j]? = some (w &&& ordinalMask) := by
  obtain ⟨hlt, rfl⟩ := List.getElem?_eq_some_iff.mp hi
  have hsplit : allOrdinals dlls = allOrdinals (dlls.take i) ++ (dlls[i].ordinals ++ allOrdinals (dlls.drop (i + 1))) := by
    conv_lhs => rw [allOrdinals, ← List.take_append_drop i dlls, List.drop_eq_getElem_cons hlt, List.flatMap_append,
      List.flatMap_cons]
    rfl
  have hjlt : j < dlls[i].ordinals.length := by
    rw [ImportDll.length_ordinals]
    exact (List.getElem?_eq_some_iff.mp hj).1
  rw [hsplit, importIndex, List.getElem?_append_right (by omega), Nat.add_sub_cancel_left,
    List.getElem?_append_left hjlt, ImportDll.ordinals, List.getElem?_map, hj]
  rfl

theorem FixImportThunk_eq {dlls : List ImportDll} (h : s.Lists dlls) {i j : ℕ} {dll : ImportDll} {w : UInt32}
    (hi : dlls[i]? = some dll) (hj : dll.table[j]? = some w) (iTextSize : UInt32) {fuel : ℕ}
    (hfuel : tableSteps (dlls.take i) + j < fuel) :
    FixImportThunk fuel iTextSize s (UInt32.ofNat (dll.tableOffset + 4 * j)) =
      .ok (iTextSize + UInt32.ofNat (4 * importIndex dlls i j)) := by
  obtain ⟨hlt, rfl⟩ := List.getElem?_eq_some_iff.mp hi
  have hsplit : dlls.take i ++ dlls[i] :: dlls.drop (i + 1) = dlls := by
    rw [← List.drop_eq_getElem_cons hlt, List.take_append_drop]
  have hapart := h.apart
  rw [← hsplit, List.pairwise_append] at hapart
  obtain ⟨first, rest, hfirst⟩ := List.exists_cons_of_ne_nil (show dlls ≠ [] by rintro rfl; simp at hlt)
  have hlisted := h.listed
  have hptr : peek32 s.data 16 = .ok (s.VirtualAddress + UInt32.ofNat first.tableOffset) := by
    rw [hfirst] at hlisted
    exact hlisted.1.tablePtr
  rw [FixImportThunk, hptr, outcome_ok_bind, s.offset_ofNat,
    fixLoop_eq (List.getElem?_eq_some_iff.mp hj).1 0 (by rw [hsplit]; exact hlisted)
      (fun d hd => hapart.2.2 d hd _ List.mem_cons_self) hfuel (by rw [hsplit, hfirst]; rfl), outcome_ok_bind,
    UInt32.zero_add, importIndex, Nat.mul_comm 4, UInt32.ofNat_mul]
  rfl

end

/-- What is to be said of the import section of these DLLs. -/
structure SectionExact (dlls : List ImportDll) (sec : Bytes) : Prop where
  reads : readBlocks sec dlls.length 4 = .ok (dlls.map ImportDll.entry)
  size : peek32 sec 0 = .ok (UInt32.ofNat sec.length) ∧ sec.length < 2 ^ 31
  aligned : sec.length % 4 = 0
  padding : unpaddedSize dlls ≤ sec.length ∧ sec.length < unpaddedSize dlls + 4 ∧
    ∀ b ∈ sec.drop (unpaddedSize dlls), b = 0

theorem sectionExact {dlls : List ImportDll} (hsize : importSectionSize dlls < 2 ^ 31) :
    SectionExact dlls (importSection dlls) where
  reads := readBlocks_importSection hsize
  size := by
    rw [length_importSection]
    refine ⟨?_, hsize⟩
    rw [importSection, List.append_assoc, List.append_assoc]
    exact peek32_middle [] _ _
  aligned := by
    rw [length_importSection]
    exact (le_ALIGN4 _).2.2
  padding := by
    have hle := le_ALIGN4 (unpaddedSize dlls)
    rw [length_importSection]
    refine ⟨hle.1, hle.2.1, fun b hb => ?_⟩
    have hlen : (word32 (UInt32.ofNat (importSectionSize dlls)) ++ blocksBytes (4 + blocksLength (dlls.map ImportDll.block))
        (dlls.map ImportDll.block) ++ namesBytes (dlls.map ImportDll.block)).length = unpaddedSize dlls := by
      rw [List.length_append, List.length_append, length_word32, length_blocksBytes _ ImportDll.counted,
        length_namesBytes, ← unpaddedSize_eq]
    rw [importSection, ← hlen, List.drop_left] at hb
    exact List.eq_of_mem_replicate hb

/-- Two DLLs, the second before the first in memory; the first has no import. -/
def sampleImports : ImportData where
  VirtualAddress := 0x1000
  data := [1, 0, 0, 0, 0, 0, 0, 0, 0, 0, 0, 0, 64, 0x10, 0, 0, 60, 0x10, 0, 0] ++
    [1, 0, 0, 0, 0, 0, 0, 0, 0, 0, 0, 0, 66, 0x10, 0, 0, 48, 0x10, 0, 0] ++
    [0, 0, 0, 0, 0, 0, 0, 0, 5, 0, 0, 0x80, 5, 0, 0, 0x80, 0, 0, 0, 0, 0, 0, 0, 0, 65, 0, 66, 0]
  size_lt := by decide

theorem byOrdinal_of_all {table : List UInt32} (h : table.all (fun w => w &&& 0x80000000 ≠ 0)) :
    ∀ w ∈ table, w &&& 0x80000000 ≠ 0 := by
  intro w hw
  have hall := List.all_eq_true.mp h w hw
  exact of_decide_eq_true hall

def sampleDlls : List ImportDll :=
  [⟨⟨[65], by decide⟩, 64, [], 60, by simp⟩,
    ⟨⟨[66], by decide⟩, 66, [0x80000005, 0x80000005], 48, byOrdinal_of_all rfl⟩]

theorem wordsAt_nil (mem : Bytes) (p : ℕ) : WordsAt mem p [] := by
  intro k w h
  simp at h

theorem wordsAt_cons {mem : Bytes} {p : ℕ} {w : UInt32} {ws : List UInt32} (hw : peek32 mem p = .ok w)
    (h : WordsAt mem (p + 4) ws) : WordsAt mem p (w :: ws)
  | 0, _, hv => by
    obtain rfl : w = _ := Option.some.inj hv
    exact hw
  | k + 1, v, hv => by
    rw [Nat.mul_add, Nat.mul_one, Nat.add_comm (4 * k), ← Nat.add_assoc]
    exact h k v hv

theorem sampleImports_lists : sampleImports.Lists sampleDlls where
  listed := ⟨⟨⟨1, by decide, by decide +kernel⟩, by decide +kernel, by decide +kernel, ⟨[66, 0], by decide +kernel⟩,
      wordsAt_cons (by decide +kernel) (wordsAt_nil _ _)⟩,
    ⟨⟨1, by decide, by decide +kernel⟩, by decide +kernel, by decide +kernel, ⟨[], by decide +kernel⟩,
      wordsAt_cons (by decide +kernel) (wordsAt_cons (by decide +kernel) (wordsAt_cons (by decide +kernel)
        (wordsAt_nil _ _)))⟩, show peek32 sampleImports.data 40 = .ok 0 by decide +kernel⟩
  apart := by
    unfold sampleDlls ImportDll.Apart
    simp

/-- A table that does not begin at a word of the section. -/
def oddImports : ImportData where
  VirtualAddress := 0x1000
  data := [1, 0, 0, 0, 0, 0, 0, 0, 0, 0, 0, 0, 34, 0x10, 0, 0, 26, 0x10, 0, 0] ++
    [0, 0, 0, 0, 0, 0, 1, 0, 0, 0x80, 0, 0, 0, 0, 65, 0, 0, 0, 0, 0]
  size_lt := by decide

def oddDlls : List ImportDll := [⟨⟨[65], by decide⟩, 34, [0x80000001], 26, byOrdinal_of_all rfl⟩]

theorem oddImports_lists : oddImports.Lists oddDlls where
  listed := ⟨⟨⟨1, by decide, by decide +kernel⟩, by decide +kernel, by decide +kernel, ⟨[0, 0, 0, 0], by decide +kernel⟩,
    wordsAt_cons (by decide +kernel) (wordsAt_cons (by decide +kernel) (wordsAt_nil _ _))⟩,
    show peek32 oddImports.data 20 = .ok 0 by decide +kernel⟩
  apart := by
    unfold oddDlls
    simp

end GnuPoc.Petran
