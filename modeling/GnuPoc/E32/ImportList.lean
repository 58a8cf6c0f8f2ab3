import GnuPoc.E32.Image
import GnuPoc.Lib.Containers
import GnuPoc.Lib.CString
import Mathlib.Algebra.Order.BigOperators.Group.List
import Mathlib.Data.List.Induction

/-!
# GnuPoc.E32.ImportList — the import section (`reloc.h`, `reloc.cpp`)

`addImport` groups the addresses by library.  `write` lays the section out in three passes: it sizes the
table, gives each name its offset behind the table, and only then writes table, names and padding.
-/

namespace GnuPoc.E32

open GnuPoc.Lib

structure Library where
  name : CString
  addresses : List UInt32
  deriving DecidableEq

/-- `Library::compare`. -/
def Library.compare (lib1 lib2 : Library) : Bool := strcmp lib1.name lib2.name < 0

/-- One `addImport` call. -/
structure ImportCall where
  libname : CString
  addr : UInt32
  deriving DecidableEq

/-- `findLibrary` and the `push_back` on what it finds. -/
def addAddress (libname : CString) (addr : UInt32) : List Library → List Library
  | [] => [⟨libname, [addr]⟩]
  | lib :: libs =>
    if strcmp lib.name libname = 0 then { lib with addresses := lib.addresses ++ [addr] } :: libs
    else lib :: addAddress libname addr libs

theorem map_name_addAddress (libname : CString) (addr : UInt32) (libs : List Library) :
    (addAddress libname addr libs).map Library.name =
      if libname ∈ libs.map Library.name then libs.map Library.name else libs.map Library.name ++ [libname] := by
  induction libs with
  | nil => rfl
  | cons lib libs ih =>
    rw [addAddress]
    by_cases h : lib.name = libname
    · rw [if_pos (strcmp_eq_zero.mpr h)]
      simp [h]
    · rw [if_neg (fun h0 => h (strcmp_eq_zero.mp h0)), List.map_cons, ih, List.map_cons]
      have hne : ¬ libname = lib.name := fun h0 => h h0.symm
      by_cases hm : libname ∈ libs.map Library.name
      · rw [if_pos hm, if_pos (List.mem_cons_of_mem _ hm)]
      · rw [if_neg hm, if_neg (List.not_mem_cons_of_ne_of_not_mem hne hm), List.cons_append]

/-- The libraries in the order they were first seen; `findLibrary` keeps their names distinct. -/
structure ImportList where
  libraries : List Library
  distinct : (libraries.map Library.name).Nodup

namespace ImportList

def empty : ImportList := ⟨[], .nil⟩

def addImport (l : ImportList) (c : ImportCall) : ImportList where
  libraries := addAddress c.libname c.addr l.libraries
  distinct := by
    rw [map_name_addAddress]
    split
    · exact l.distinct
    · next hm => exact List.nodup_append.mpr ⟨l.distinct, List.nodup_singleton _, by simpa using hm⟩

/-- The list after a sequence of calls. -/
def fill (calls : List ImportCall) : ImportList := calls.foldl addImport empty

def numLibraries (l : ImportList) : ℕ := l.libraries.length

/-! ### Writing -/

/-- The first pass of `write`: `size` of the table. -/
def tableSize (libraries : List Library) : UInt32 :=
  libraries.foldl (fun size lib => size + (8 + UInt32.ofNat (lib.addresses.length * 4))) 4

/-- The second pass: each library with its `offset`, and `size` behind the names. -/
def placeNames : UInt32 → List Library → List (UInt32 × Library) × UInt32
  | size, [] => ([], size)
  | size, lib :: libs =>
    let placed := placeNames (size + UInt32.ofNat (lib.name.chars.length + 1)) libs
    ((size, lib) :: placed.1, placed.2)

def writeLibrary (p : UInt32 × Library) : Bytes :=
  writeUint32 p.1 ++ writeUint32 (UInt32.ofNat p.2.addresses.length) ++ p.2.addresses.flatMap writeUint32

def writeName (lib : Library) : Bytes := lib.name.chars ++ [0]

/-- The order `write` puts the libraries in. -/
def ordered (sort : StdSort Library.compare) (doSort : Bool) (l : ImportList) : List Library :=
  if doSort then sort.run l.libraries else l.libraries

def write (sort : StdSort Library.compare) (l : ImportList) (doSort padsize : Bool) : Bytes :=
  let libraries := l.ordered sort doSort
  let placed := placeNames (tableSize libraries) libraries
  let pad := padding placed.2
  let size := if padsize then placed.2 + pad else placed.2
  writeUint32 size ++ placed.1.flatMap writeLibrary ++ placed.1.flatMap (fun p => writeName p.2) ++
    List.replicate pad.toNat 0

end ImportList

/-! ### The format -/

/-- A library as a reader finds it. -/
structure ImportedLibrary where
  name : Bytes
  addresses : List UInt32

structure ImportSection where
  size : ℕ
  libraries : List ImportedLibrary

/-- The NUL-terminated string at an offset. -/
def readNameAt (bs : Bytes) (offset : ℕ) : Option Bytes :=
  if 0 ∈ bs.drop offset then some (readCString (bs.drop offset)) else none

def readAddresses : ℕ → Reader (List UInt32)
  | 0 => pure []
  | n + 1 => do
    let a ← readUint32
    let as ← readAddresses n
    return a :: as

/-- A table entry of the section `bs`: name offset, count and the addresses. -/
def readLibrary (bs : Bytes) : Reader ImportedLibrary := do
  let offset ← readUint32
  let count ← readUint32
  let addresses ← readAddresses count.toNat
  let name ← StateT.lift (readNameAt bs offset.toNat)
  return ⟨name, addresses⟩

def readLibraries (bs : Bytes) : ℕ → Reader (List ImportedLibrary)
  | 0 => pure []
  | n + 1 => do
    let lib ← readLibrary bs
    let libs ← readLibraries bs n
    return lib :: libs

/-- An import section of `dllRefTableCount` libraries: section size, table, names. -/
def readImportSection (dllRefTableCount : ℕ) (bs : Bytes) : Option ImportSection := do
  let (size, table) ← readUint32 bs
  let (libraries, _) ← readLibraries bs dllRefTableCount table
  return ⟨size.toNat, libraries⟩

/-- The addresses a library was given, in call order. -/
def addressesOf (calls : List ImportCall) (name : CString) : List UInt32 :=
  (calls.filter fun c => c.libname = name).map ImportCall.addr

/-- The distinct libraries in first-seen order. -/
def firstSeen (calls : List ImportCall) : List CString := (calls.map ImportCall.libname).eraseDups

/-- What a section says about the calls it was written for. -/
structure ImportSection.Describes (sec : ImportSection) (calls : List ImportCall) (doSort padsize : Bool)
    (bs : Bytes) : Prop where
  /-- Each distinct library once, with its addresses in the order added. -/
  libraries : ∃ names : List CString, names.Perm (firstSeen calls) ∧
    sec.libraries = names.map (fun n => ⟨n.chars, addressesOf calls n⟩) ∧
    (if doSort then names.Pairwise fun m n => strcmp m n < 0 else names = firstSeen calls)
  aligned : bs.length % 4 = 0
  padded : padsize = true → bs.length = sec.size

namespace ImportList

/-! ### The libraries after a sequence of calls -/

theorem addAddress_map (libname : CString) (addr : UInt32) (f : CString → List UInt32) :
    ∀ {names : List CString}, names.Nodup →
      addAddress libname addr (names.map fun n => ⟨n, f n⟩) =
        if libname ∈ names then names.map fun n => ⟨n, if libname = n then f n ++ [addr] else f n⟩
        else names.map (fun n => ⟨n, f n⟩) ++ [⟨libname, [addr]⟩]
  | [], _ => rfl
  | n :: names, hn => by
    obtain ⟨hnot, hns⟩ := List.nodup_cons.mp hn
    have ih := addAddress_map libname addr f hns
    rw [List.map_cons, addAddress]
    by_cases h : n = libname
    · have hrest : names.map (fun m => (⟨m, if libname = m then f m ++ [addr] else f m⟩ : Library)) =
          names.map fun m => ⟨m, f m⟩ := by
        refine List.map_congr_left fun m hm => ?_
        rw [if_neg fun h0 => hnot (by rw [h, h0]; exact hm)]
      rw [if_pos (strcmp_eq_zero.mpr h), if_pos (by simp [h]), List.map_cons, hrest, if_pos h.symm]
    · have hne : ¬ libname = n := fun h0 => h h0.symm
      rw [if_neg (fun h0 => h (strcmp_eq_zero.mp h0)), ih]
      by_cases hm : libname ∈ names
      · rw [if_pos hm, if_pos (List.mem_cons_of_mem _ hm), List.map_cons, if_neg hne]
      · rw [if_neg hm, if_neg (List.not_mem_cons_of_ne_of_not_mem hne hm), List.cons_append]

theorem mem_firstSeen {calls : List ImportCall} {n : CString} : n ∈ firstSeen calls ↔ ∃ c ∈ calls, c.libname = n := by
  rw [firstSeen, List.mem_eraseDups, List.mem_map]

theorem firstSeen_append (calls : List ImportCall) (c : ImportCall) :
    firstSeen (calls ++ [c]) =
      if c.libname ∈ firstSeen calls then firstSeen calls else firstSeen calls ++ [c.libname] := by
  rw [firstSeen, List.map_append, List.eraseDups_append]
  have hmem : c.libname ∈ firstSeen calls ↔ c.libname ∈ calls.map ImportCall.libname := List.mem_eraseDups
  by_cases h : c.libname ∈ calls.map ImportCall.libname
  · rw [if_pos (hmem.mpr h), List.map_singleton, List.cons_removeAll, if_neg (by simpa using h),
      List.nil_removeAll, List.eraseDups_nil, List.append_nil]
    rfl
  · rw [if_neg (fun h0 => h (hmem.mp h0)), List.map_singleton, List.cons_removeAll, if_pos (by simpa using h),
      List.nil_removeAll, List.eraseDups_cons, List.filter_nil, List.eraseDups_nil]
    rfl

theorem libraries_fill (calls : List ImportCall) :
    (fill calls).libraries = (firstSeen calls).map fun n => ⟨n, addressesOf calls n⟩ := by
  induction calls using List.reverseRecOn with
  | nil => rfl
  | append_singleton calls c ih =>
    have hfill : (fill (calls ++ [c])).libraries = addAddress c.libname c.addr (fill calls).libraries := by
      rw [fill, List.foldl_append]
      rfl
    have hnodup : (firstSeen calls).Nodup := by
      have h := (fill calls).distinct
      rw [ih, List.map_map] at h
      rwa [show (Library.name ∘ fun n => ⟨n, addressesOf calls n⟩) = id from rfl, List.map_id] at h
    have haddr (n : CString) : addressesOf (calls ++ [c]) n =
        if c.libname = n then addressesOf calls n ++ [c.addr] else addressesOf calls n := by
      rw [addressesOf, List.filter_append, List.map_append]
      by_cases h : c.libname = n
      · simp [h, addressesOf]
      · simp [h, addressesOf]
    rw [hfill, ih, addAddress_map _ _ _ hnodup, firstSeen_append]
    by_cases hm : c.libname ∈ firstSeen calls
    · rw [if_pos hm, if_pos hm]
      exact List.map_congr_left fun n _ => by rw [haddr]
    · have hnew : addressesOf calls c.libname = [] := by
        rw [addressesOf, List.map_eq_nil_iff, List.filter_eq_nil_iff]
        intro c' hc'
        simpa using fun h => hm (mem_firstSeen.mpr ⟨c', hc', h⟩)
      rw [if_neg hm, if_neg hm, List.map_append, List.map_singleton, haddr, if_pos rfl, hnew]
      refine congrArg (· ++ _) (List.map_congr_left fun n hn => ?_)
      rw [haddr, if_neg fun h0 => hm (by rw [h0]; exact hn)]

/-! ### Sizes and offsets -/

/-- The size field and the table. -/
def tableLength (libraries : List Library) : ℕ := 4 + (libraries.map fun lib => 8 + 4 * lib.addresses.length).sum

def namesLength (libraries : List Library) : ℕ := (libraries.map fun lib => lib.name.chars.length + 1).sum

theorem toNat_tableSize (libraries : List Library) : (tableSize libraries).toNat = tableLength libraries % 2 ^ 32 := by
  have hfold (a : UInt32) : (libraries.foldl (fun size lib => size + (8 + UInt32.ofNat (lib.addresses.length * 4))) a).toNat =
      (a.toNat + (libraries.map fun lib => 8 + 4 * lib.addresses.length).sum) % 2 ^ 32 := by
    induction libraries generalizing a with
    | nil => simp [Nat.mod_eq_of_lt a.toNat_lt]
    | cons lib libs ih =>
      have h8 : (8 : UInt32).toNat = 8 := rfl
      rw [List.foldl_cons, ih, UInt32.toNat_add, UInt32.toNat_add, UInt32.toNat_ofNat', h8, List.map_cons,
        List.sum_cons]
      omega
  exact hfold 4

theorem toNat_placeNames (size : UInt32) (libraries : List Library) :
    (placeNames size libraries).2.toNat = (size.toNat + namesLength libraries) % 2 ^ 32 := by
  induction libraries generalizing size with
  | nil => simp [placeNames, namesLength, Nat.mod_eq_of_lt size.toNat_lt]
  | cons lib libs ih =>
    rw [placeNames, ih, UInt32.toNat_add, UInt32.toNat_ofNat', namesLength, namesLength, List.map_cons, List.sum_cons]
    omega

theorem map_placeNames (size : UInt32) (libraries : List Library) :
    (placeNames size libraries).1.map Prod.snd = libraries := by
  induction libraries generalizing size with
  | nil => rfl
  | cons lib libs ih => rw [placeNames, List.map_cons, ih]

theorem length_flatMap_writeUint32 (addresses : List UInt32) :
    (addresses.flatMap writeUint32).length = 4 * addresses.length := by
  induction addresses with
  | nil => rfl
  | cons a as ih =>
    rw [List.flatMap_cons, List.length_append, ih, length_writeUint32, List.length_cons]
    omega

theorem length_table (size : UInt32) (libraries : List Library) :
    4 + ((placeNames size libraries).1.flatMap writeLibrary).length = tableLength libraries := by
  rw [tableLength, List.length_flatMap]
  congr 2
  conv_rhs => rw [← map_placeNames size libraries, List.map_map]
  refine List.map_congr_left fun p _ => ?_
  simp only [writeLibrary, List.length_append, length_writeUint32, length_flatMap_writeUint32, Function.comp_apply]

theorem flatMap_names (size : UInt32) (libraries : List Library) :
    (placeNames size libraries).1.flatMap (fun p => writeName p.2) = libraries.flatMap writeName := by
  conv_rhs => rw [← map_placeNames size libraries, List.flatMap_map]

theorem length_names (libraries : List Library) : (libraries.flatMap writeName).length = namesLength libraries := by
  rw [List.length_flatMap, namesLength]
  congr 1
  refine List.map_congr_left fun lib _ => ?_
  rw [writeName, List.length_append]
  rfl

/-- `size` behind the names. -/
def unpadded (libraries : List Library) : ℕ := tableLength libraries + namesLength libraries

/-- What `write` writes, whatever has wrapped: the table, the names and up to three zero bytes. -/
theorem length_write (sort : StdSort Library.compare) (l : ImportList) (doSort padsize : Bool) :
    (l.write sort doSort padsize).length =
      unpadded (l.ordered sort doSort) + (4 - unpadded (l.ordered sort doSort) % 4) % 4 := by
  have hpad : (padding (placeNames (tableSize (l.ordered sort doSort)) (l.ordered sort doSort)).2).toNat =
      (4 - unpadded (l.ordered sort doSort) % 4) % 4 := by
    rw [toNat_padding, toNat_placeNames, toNat_tableSize, unpadded]
    omega
  simp only [write]
  rw [flatMap_names, List.length_append, List.length_append, List.length_append, length_writeUint32, length_table,
    length_names, List.length_replicate, hpad, unpadded]

/-! ### Reading back -/

theorem readAddresses_write : ∀ (addresses : List UInt32) (rest : Bytes),
    readAddresses addresses.length (addresses.flatMap writeUint32 ++ rest) = some (addresses, rest)
  | [], _ => rfl
  | a :: as, rest => by
    rw [List.length_cons, readAddresses, List.flatMap_cons, List.append_assoc, readUint32_append, reader_bind,
      readAddresses_write as rest]
    rfl

theorem readNameAt_write {bs tail : Bytes} {offset : ℕ} {name : CString}
    (h : bs.drop offset = name.chars ++ 0 :: tail) : readNameAt bs offset = some name.chars := by
  rw [readNameAt, h, if_pos (by simp), readCString_append]

theorem readLibrary_write {bs tail rest : Bytes} {p : UInt32 × Library}
    (hname : bs.drop p.1.toNat = p.2.name.chars ++ 0 :: tail) (hcount : p.2.addresses.length < 2 ^ 32) :
    readLibrary bs (writeLibrary p ++ rest) = some (⟨p.2.name.chars, p.2.addresses⟩, rest) := by
  have hn : (UInt32.ofNat p.2.addresses.length).toNat = p.2.addresses.length := by
    rw [UInt32.toNat_ofNat', Nat.mod_eq_of_lt hcount]
  unfold readLibrary writeLibrary
  rw [List.append_assoc, List.append_assoc, readUint32_append, readUint32_append, reader_bind, hn,
    readAddresses_write, Option.bind_some, reader_bind]
  show (readNameAt bs p.1.toNat >>= _).bind _ = _
  rw [readNameAt_write hname]
  rfl

/-- The whole table, when the names stand one after the other from `size` on. -/
theorem readLibraries_write {bs tail : Bytes} : ∀ {libraries : List Library} {size : UInt32} (rest : Bytes),
    bs.drop size.toNat = libraries.flatMap writeName ++ tail →
    size.toNat + namesLength libraries < 2 ^ 32 →
    (∀ lib ∈ libraries, lib.addresses.length < 2 ^ 32) →
    readLibraries bs libraries.length ((placeNames size libraries).1.flatMap writeLibrary ++ rest) =
      some (libraries.map fun lib => ⟨lib.name.chars, lib.addresses⟩, rest)
  | [], _, _, _, _, _ => rfl
  | lib :: libs, size, rest, hnames, hsize, hcount => by
    have hlen : namesLength (lib :: libs) = lib.name.chars.length + 1 + namesLength libs := rfl
    have hdrop : bs.drop size.toNat = lib.name.chars ++ 0 :: (libs.flatMap writeName ++ tail) := by
      rw [hnames, List.flatMap_cons, writeName]
      simp
    have hnext : (size + UInt32.ofNat (lib.name.chars.length + 1)).toNat = size.toNat + (lib.name.chars.length + 1) := by
      rw [UInt32.toNat_add, UInt32.toNat_ofNat']
      omega
    have hdrop' : bs.drop (size + UInt32.ofNat (lib.name.chars.length + 1)).toNat = libs.flatMap writeName ++ tail := by
      have h1 : (lib.name.chars ++ [0]).length = lib.name.chars.length + 1 := by simp
      rw [hnext, ← List.drop_drop, hnames, List.flatMap_cons, List.append_assoc, writeName, List.drop_left' h1]
    have ih := readLibraries_write rest hdrop' (by omega) fun l hl => hcount l (List.mem_cons_of_mem _ hl)
    rw [List.length_cons, readLibraries, placeNames, List.flatMap_cons, List.append_assoc, reader_bind,
      readLibrary_write hdrop (hcount lib List.mem_cons_self), Option.bind_some, reader_bind, ih]
    rfl

end ImportList

/-! ### The claim about every sequence of calls -/

/-- The size field: the table, the names and, with `padsize`, the padding. -/
def importSectionSize (calls : List ImportCall) (padsize : Bool) : ℕ :=
  let size := 4 + ((firstSeen calls).map fun n => 8 + 4 * (addressesOf calls n).length).sum +
    ((firstSeen calls).map fun n => n.chars.length + 1).sum
  if padsize then size + (4 - size % 4) % 4 else size

namespace ImportList

variable (sort : StdSort Library.compare) (calls : List ImportCall) (doSort : Bool)

theorem ordered_perm : ((fill calls).ordered sort doSort).Perm (fill calls).libraries := by
  unfold ordered
  split
  · exact sort.perm _
  · exact .refl _

/-- The libraries are those first seen, in this order or sorted. -/
theorem ordered_fill :
    ∃ names : List CString, names.Perm (firstSeen calls) ∧
      (fill calls).ordered sort doSort = names.map (fun n => ⟨n, addressesOf calls n⟩) ∧
      (if doSort then names.Pairwise fun m n => strcmp m n < 0 else names = firstSeen calls) := by
  have hperm := ordered_perm sort calls doSort
  have hid : (Library.name ∘ fun n => ⟨n, addressesOf calls n⟩) = id := rfl
  have hnames : ((fill calls).libraries.map Library.name) = firstSeen calls := by
    rw [libraries_fill, List.map_map, hid, List.map_id]
  have hnperm : (((fill calls).ordered sort doSort).map Library.name).Perm (firstSeen calls) := by
    rw [← hnames]
    exact hperm.map _
  refine ⟨((fill calls).ordered sort doSort).map Library.name, hnperm, ?_, ?_⟩
  · rw [List.map_map]
    refine (List.map_id _).symm.trans (List.map_congr_left fun lib hlib => ?_)
    have hmem := hperm.mem_iff.mp hlib
    rw [libraries_fill] at hmem
    obtain ⟨n, -, rfl⟩ := List.mem_map.mp hmem
    rfl
  · cases doSort with
    | false => exact hnames
    | true =>
      have hnd : (((fill calls).ordered sort true).map Library.name).Nodup := by
        rw [hnperm.nodup_iff, ← hnames]
        exact (fill calls).distinct
      refine List.pairwise_map.mpr ?_
      refine (sort.sorted (fill calls).libraries).imp₂ (fun m n hle hne => ?_) (List.pairwise_map.mp hnd)
      rcases CString.lt_or_gt_of_ne hne with hlt | hgt
      · exact hlt
      · simp only [Library.compare, decide_eq_false_iff_not] at hle
        exact absurd hgt hle

theorem unpadded_ordered :
    unpadded ((fill calls).ordered sort doSort) = importSectionSize calls false := by
  have hperm := ordered_perm sort calls doSort
  rw [unpadded, tableLength, namesLength, (hperm.map _).sum_eq, (hperm.map _).sum_eq, libraries_fill, List.map_map,
    List.map_map]
  rfl

theorem toNat_size (padsize : Bool) (h : importSectionSize calls padsize < 2 ^ 32) :
    (let placed := placeNames (tableSize ((fill calls).ordered sort doSort)) ((fill calls).ordered sort doSort)
      if padsize then placed.2 + padding placed.2 else placed.2).toNat = importSectionSize calls padsize := by
  have hun := unpadded_ordered sort calls doSort
  have hplaced : (placeNames (tableSize ((fill calls).ordered sort doSort)) ((fill calls).ordered sort doSort)).2.toNat =
      importSectionSize calls false % 2 ^ 32 := by
    rw [toNat_placeNames, toNat_tableSize, ← hun, unpadded]
    omega
  cases padsize with
  | false =>
    simp only [Bool.false_eq_true, if_false]
    rw [hplaced, Nat.mod_eq_of_lt h]
  | true =>
    have htrue : importSectionSize calls true =
        importSectionSize calls false + (4 - importSectionSize calls false % 4) % 4 := rfl
    simp only [if_true]
    rw [UInt32.toNat_add, toNat_padding, hplaced, htrue]
    omega

/-- The section is read back as the libraries in their order. -/
theorem readImportSection_write (padsize : Bool) (h : importSectionSize calls padsize < 2 ^ 32) :
    readImportSection (fill calls).numLibraries ((fill calls).write sort doSort padsize) =
      some ⟨importSectionSize calls padsize,
        ((fill calls).ordered sort doSort).map fun lib => ⟨lib.name.chars, lib.addresses⟩⟩ := by
  have hun := unpadded_ordered sort calls doSort
  have hsize := toNat_size sort calls doSort padsize h
  have hnum : (fill calls).numLibraries = ((fill calls).ordered sort doSort).length :=
    (ordered_perm sort calls doSort).length_eq.symm
  have hle : importSectionSize calls false ≤ importSectionSize calls padsize := by
    cases padsize with
    | false => exact le_rfl
    | true => exact Nat.le_add_right _ _
  simp only [write] at hsize ⊢
  rw [hnum]
  generalize (fill calls).ordered sort doSort = libs at hun hsize ⊢
  generalize (if padsize then (placeNames (tableSize libs) libs).2 + padding (placeNames (tableSize libs) libs).2
    else (placeNames (tableSize libs) libs).2) = size at hsize ⊢
  generalize List.replicate (padding (placeNames (tableSize libs) libs).2).toNat (0 : UInt8) = pad
  have htable : (tableSize libs).toNat = tableLength libs := by
    rw [toNat_tableSize, Nat.mod_eq_of_lt (by rw [unpadded] at hun; omega)]
  have hcount : ∀ lib ∈ libs, lib.addresses.length < 2 ^ 32 := by
    intro lib hlib
    have hle : 8 + 4 * lib.addresses.length ≤ (libs.map fun lib => 8 + 4 * lib.addresses.length).sum :=
      List.single_le_sum (fun _ _ => Nat.zero_le _) _ (List.mem_map_of_mem hlib)
    rw [unpadded, tableLength] at hun
    omega
  have hdrop : (writeUint32 size ++ (placeNames (tableSize libs) libs).1.flatMap writeLibrary ++
      (placeNames (tableSize libs) libs).1.flatMap (fun p => writeName p.2) ++ pad).drop (tableSize libs).toNat =
        libs.flatMap writeName ++ pad := by
    have hfront : (writeUint32 size ++ (placeNames (tableSize libs) libs).1.flatMap writeLibrary).length =
        (tableSize libs).toNat := by
      rw [List.length_append, length_writeUint32, length_table, htable]
    rw [List.append_assoc, List.drop_left' hfront, flatMap_names]
  have hfit : (tableSize libs).toNat + namesLength libs < 2 ^ 32 := by
    rw [unpadded] at hun
    omega
  have hlibs := readLibraries_write
    ((placeNames (tableSize libs) libs).1.flatMap (fun p => writeName p.2) ++ pad) hdrop hfit hcount
  rw [← List.append_assoc] at hlibs
  unfold readImportSection
  rw [List.append_assoc, List.append_assoc, readUint32_write, Option.bind_eq_bind, Option.bind_some]
  show (readLibraries _ _ _ >>= _) = _
  rw [← List.append_assoc, ← List.append_assoc, ← List.append_assoc, hlibs, hsize]
  rfl

theorem size_lt {count : ℕ} {bs : Bytes} {sec : ImportSection} (h : readImportSection count bs = some sec) :
    sec.size < 2 ^ 32 := by
  obtain ⟨⟨size, table⟩, -, h⟩ := Option.bind_eq_some_iff.mp h
  obtain ⟨⟨libs, rest⟩, -, h⟩ := Option.bind_eq_some_iff.mp h
  rw [← Option.some.inj h]
  exact size.toNat_lt

theorem firstSeen_nodup : (firstSeen calls).Nodup := by
  have h := (fill calls).distinct
  rwa [libraries_fill, List.map_map, show (Library.name ∘ fun n => ⟨n, addressesOf calls n⟩) = id from rfl,
    List.map_id] at h

theorem sum_addressesOf : ((firstSeen calls).map fun n => (addressesOf calls n).length).sum = calls.length := by
  have hperm := flatMap_filter_perm ImportCall.libname (firstSeen_nodup calls)
    (fun c hc => mem_firstSeen.mpr ⟨c, hc, rfl⟩ : ∀ c ∈ calls, c.libname ∈ firstSeen calls)
  rw [← hperm.length_eq, List.length_flatMap]
  simp only [addressesOf, List.length_map]

theorem four_mul_length_le : 4 + 4 * calls.length ≤ importSectionSize calls false := by
  have hsum : 4 * ((firstSeen calls).map fun n => (addressesOf calls n).length).sum ≤
      ((firstSeen calls).map fun n => 8 + 4 * (addressesOf calls n).length).sum := by
    generalize firstSeen calls = names
    induction names with
    | nil => simp
    | cons n names ih =>
      rw [List.map_cons, List.map_cons, List.sum_cons, List.sum_cons]
      omega
  rw [sum_addressesOf] at hsum
  show 4 + 4 * calls.length ≤ 4 + _ + _
  omega

end ImportList

/-- Merge sort by name. -/
def mergeSortNames : StdSort Library.compare :=
  StdSort.ofMergeSort
    (fun a b c hab hbc => by
      simp only [Library.compare, decide_eq_false_iff_not] at hab hbc ⊢
      intro hca
      rcases eq_or_ne a.name b.name with heq | hne
      · exact hbc (by rw [← heq]; exact hca)
      · rcases CString.lt_or_gt_of_ne hne with hlt | hgt
        · exact hbc (CString.lt_trans hca hlt)
        · exact hab hgt)
    (fun a b hab => by
      simp only [Library.compare, decide_eq_false_iff_not, decide_eq_true_eq] at hab ⊢
      exact fun h => CString.lt_irrefl _ (CString.lt_trans hab h))

/-- **Import section.**  Where its size field fits 32 bits, the section gives back each distinct library
once, with its addresses in the order added and its name at the stated offset; the libraries are in
`strcmp` order or as first seen, and the bytes written are a multiple of four and, with `padsize`, as many
as declared. -/
theorem importList_write_describes (sort : StdSort Library.compare) (calls : List ImportCall) (doSort padsize : Bool)
    (h : importSectionSize calls padsize < 2 ^ 32) :
    ∃ sec, readImportSection (ImportList.fill calls).numLibraries
        ((ImportList.fill calls).write sort doSort padsize) = some sec ∧
      sec.Describes calls doSort padsize ((ImportList.fill calls).write sort doSort padsize) := by
  obtain ⟨names, hperm, hlibs, horder⟩ := ImportList.ordered_fill sort calls doSort
  have hread := ImportList.readImportSection_write sort calls doSort padsize h
  have hlen := ImportList.length_write sort (ImportList.fill calls) doSort padsize
  rw [ImportList.unpadded_ordered] at hlen
  refine ⟨_, hread, ⟨names, hperm, ?_, horder⟩, ?_, ?_⟩
  · rw [hlibs, List.map_map]
    rfl
  · omega
  · rintro rfl
    exact hlen

/-- Two calls for one library and one for another, sorted. -/
theorem importList_write_describes_three :
    ∃ sec, readImportSection (ImportList.fill [⟨⟨[98], by decide⟩, 16⟩, ⟨⟨[97], by decide⟩, 20⟩,
        ⟨⟨[98], by decide⟩, 4⟩]).numLibraries
        ((ImportList.fill [⟨⟨[98], by decide⟩, 16⟩, ⟨⟨[97], by decide⟩, 20⟩,
          ⟨⟨[98], by decide⟩, 4⟩]).write mergeSortNames true true) = some sec ∧
      sec.Describes [⟨⟨[98], by decide⟩, 16⟩, ⟨⟨[97], by decide⟩, 20⟩, ⟨⟨[98], by decide⟩, 4⟩] true true
        ((ImportList.fill [⟨⟨[98], by decide⟩, 16⟩, ⟨⟨[97], by decide⟩, 20⟩,
          ⟨⟨[98], by decide⟩, 4⟩]).write mergeSortNames true true) :=
  importList_write_describes mergeSortNames _ true true (by decide)

/-- With 2³⁰ addresses of one library the section is longer than its size field can say. -/
theorem importList_write_too_long :
    ¬ ∃ sec, readImportSection (ImportList.fill (List.replicate (2 ^ 30) ⟨⟨[97], by decide⟩, 0⟩)).numLibraries
        ((ImportList.fill (List.replicate (2 ^ 30) ⟨⟨[97], by decide⟩, 0⟩)).write mergeSortNames true true) = some sec ∧
      sec.Describes (List.replicate (2 ^ 30) ⟨⟨[97], by decide⟩, 0⟩) true true
        ((ImportList.fill (List.replicate (2 ^ 30) ⟨⟨[97], by decide⟩, 0⟩)).write mergeSortNames true true) := by
  rintro ⟨sec, hread, hd⟩
  have hsize := ImportList.size_lt hread
  have hlen := ImportList.length_write mergeSortNames
    (ImportList.fill (List.replicate (2 ^ 30) ⟨⟨[97], by decide⟩, 0⟩)) true true
  rw [ImportList.unpadded_ordered] at hlen
  have hlong := ImportList.four_mul_length_le (List.replicate (2 ^ 30) ⟨⟨[97], by decide⟩, 0⟩)
  rw [List.length_replicate] at hlong
  have hpadded := hd.padded rfl
  omega

end GnuPoc.E32
