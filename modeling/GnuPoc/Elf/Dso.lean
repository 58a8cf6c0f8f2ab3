import GnuPoc.Elf.ExportList

/-!
# GnuPoc.Elf.Dso — the import library `writeDso` writes and `fixImportRelocation` reads

An `ElfFile` is the list of its sections behind the null section, with the contents that were handed to
libelf; libelf gives them back unchanged.  The buffers of `SectionWriter` are lists
here; `DsoHash` says how far they grow.  The contents of `.dynamic` and `.version_d` and the program headers are file offsets and version
records that the reader never looks at; they are left out.
-/

namespace GnuPoc.Elf

open GnuPoc.Lib

/-! ### ELF files -/

inductive SectionType
  | SHT_PROGBITS | SHT_DYNAMIC | SHT_HASH | SHT_GNU_verdef | SHT_GNU_versym | SHT_STRTAB | SHT_DYNSYM
  deriving DecidableEq

structure Elf32_Sym where
  st_name : ℕ
  st_value : UInt32
  st_size : ℤ
  st_info : ℕ
  st_shndx : ℕ
  deriving DecidableEq

/-- The contents of a section, by the `Elf_Type` of its data. -/
inductive ScnData
  | ELF_T_WORD (d_buf : List UInt32)
  | ELF_T_HALF (d_buf : List UInt16)
  | ELF_T_SYM (d_buf : List Elf32_Sym)
  | ELF_T_BYTE (d_buf : Bytes)
  | notModelled

structure Section where
  sh_type : SectionType
  sh_addr : UInt32
  sh_link : ℕ
  data : ScnData

structure ElfFile where
  sections : List Section

/-- `findSection`: the first section of a type. -/
def findSection (elf : ElfFile) (type : SectionType) : Option Section :=
  elf.sections.find? fun s => s.sh_type = type

/-- `elf_strptr` of libelf, up to the terminator. -/
def elf_strptr (elf : ElfFile) (section_ offset : ℕ) : Option Bytes :=
  match elf.sections[section_ - 1]? with
  | some ⟨_, _, _, .ELF_T_BYTE d_buf⟩ =>
    if offset < d_buf.length then some (readCString (d_buf.drop offset)) else none
  | _ => none

/-- `elf_rawdata`: the bytes in the file, which is little-endian. -/
def elf_rawdata (s : Section) : Bytes :=
  match s.data with
  | .ELF_T_WORD d_buf => d_buf.flatMap fun w => leBytes 4 w.toNat
  | .ELF_T_BYTE d_buf => d_buf
  | _ => []

/-- `findSymbol`. -/
def findSymbol (elf : ElfFile) (s : Section) (symbolName : CString) : Option Elf32_Sym :=
  match s.data with
  | .ELF_T_SYM d_buf =>
    d_buf.find? fun sym =>
      match elf_strptr elf s.sh_link sym.st_name with
      | none => false
      | some name => strcmpChars name symbolName.chars = 0
  | _ => none

/-! ### `fixImportRelocation` -/

/-- `fixImportRelocation(offset, out, ordinal)`: the word at the site goes to the upper half. -/
def fixImportRelocationOrdinal (offset : ℕ) (out : Bytes) (ordinal : ℕ) : Bytes :=
  let orig := ofLE ((out.drop offset).take 4)
  out.take offset ++ leBytes 4 ((ordinal + orig * 2 ^ 16) % 2 ^ 32) ++ out.drop (offset + 4)

/-- `fixImportRelocation` by name; `none` is a library that no search opened. -/
def fixImportRelocation (offset : ℕ) (out : Bytes) (symbol : CString) (dso : Option ElfFile) :
    Bool × Bytes :=
  match dso with
  | none => (false, out)
  | some elf =>
    match findSection elf .SHT_DYNSYM with
    | none => (false, out)
    | some dynsym =>
      match findSymbol elf dynsym symbol with
      | none => (false, out)
      | some sym =>
        match findSection elf .SHT_PROGBITS with
        | none => (false, out)
        | some progbits =>
          let addr := sym.st_value - progbits.sh_addr
          let data := elf_rawdata progbits
          if data.length ≤ addr.toNat then (false, out)
          else (true, fixImportRelocationOrdinal offset out (ofLE ((data.drop addr.toNat).take 4)))

/-! ### `writeDso` -/

def EPOC_VERSION_9_2 : ℕ := 0x902
def EPOC_VERSION_9_4 : ℕ := 0x904

/-- The arrays `writeDso` fills while it walks the exports. -/
structure DsoTables where
  strtab : Bytes
  symtab : List Elf32_Sym
  ordinalArray : List UInt32
  versymArray : List UInt16
  hashTable : List UInt32
  hashChain : List UInt32

/-- `StringTable::appendString` returns the old size. -/
def appendString (strtab : Bytes) (str : Bytes) : Bytes := strtab ++ (str ++ [0])

def clearedSym : Elf32_Sym := ⟨0, 0, 0, 0, 0⟩

section
variable (epocVersion : ℕ) (elf_hash : CString → ℕ)

/-- `ELF32_ST_INFO(STB_GLOBAL, …)`. -/
def stInfo (code : Bool) : ℕ :=
  if EPOC_VERSION_9_2 ≤ epocVersion then (if code then 0x12 else 0x11) else 0x10

/-- The symbol of a named export, whose name goes to the end of `strtab`. -/
def exportSym (strtab : Bytes) (i : ℕ) (e : Export) : Elf32_Sym where
  st_name := strtab.length
  st_value := UInt32.ofNat (4 * i)
  st_size := if EPOC_VERSION_9_2 ≤ epocVersion ∧ e.code = false then e.size else 4
  st_info := stInfo epocVersion e.code
  st_shndx := 1

/-- The body of the loop over the exports. -/
def writeSymbol (t : DsoTables) (exp : Export × ℕ) : DsoTables :=
  let (e, i) := exp
  match e.name with
  | none =>
    { t with
      ordinalArray := t.ordinalArray ++ [UInt32.ofNat (i + 1)]
      symtab := t.symtab ++ [clearedSym]
      versymArray := t.versymArray ++ [2] }
  | some name =>
    let hash := elf_hash name % t.hashTable.length
    { strtab := appendString t.strtab name.chars
      symtab := t.symtab ++ [exportSym epocVersion t.strtab i e]
      ordinalArray := t.ordinalArray ++ [UInt32.ofNat (i + 1)]
      versymArray := t.versymArray ++ [2]
      hashTable := t.hashTable.set hash (UInt32.ofNat (i + 1))
      hashChain := t.hashChain.set (i + 1) (t.hashTable.getD hash 0) }

/-- The arrays before the loop: the empty string, the null symbol and zeroed hash tables. -/
def emptyTables (n : ℕ) : DsoTables where
  strtab := appendString [] []
  symtab := [clearedSym]
  ordinalArray := []
  versymArray := [0]
  hashTable := List.replicate (max (n / 2) 1) 0
  hashChain := List.replicate (n + 1) 0

def dsoTables (exports : List Export) : DsoTables :=
  exports.zipIdx.foldl (writeSymbol epocVersion elf_hash) (emptyTables exports.length)

/-- The string table with the two library names, filled up to a multiple of four. -/
def finishStrtab (strtab basename soname : Bytes) : Bytes :=
  let s := appendString (appendString strtab basename) soname
  s ++ List.replicate ((4 - s.length % 4) % 4) (if epocVersion < EPOC_VERSION_9_4 then 0x20 else 0)

/-- `ExportList::writeDso`. -/
def writeDso (exports : List Export) (basename soname : CString) : ElfFile :=
  let t := dsoTables epocVersion elf_hash exports
  { sections := [
      ⟨.SHT_PROGBITS, 0, 0, .ELF_T_WORD (t.ordinalArray ++ [0])⟩,
      ⟨.SHT_DYNAMIC, 0, 6, .notModelled⟩,
      ⟨.SHT_HASH, 0, 7, .ELF_T_WORD (UInt32.ofNat t.hashTable.length ::
        UInt32.ofNat (exports.length + 1) :: (t.hashTable ++ t.hashChain))⟩,
      ⟨.SHT_GNU_verdef, 0, 6, .notModelled⟩,
      ⟨.SHT_GNU_versym, 0, 7, .ELF_T_HALF t.versymArray⟩,
      ⟨.SHT_STRTAB, 0, 0, .ELF_T_BYTE (finishStrtab epocVersion t.strtab basename.chars soname.chars)⟩,
      ⟨.SHT_DYNSYM, 0, 6, .ELF_T_SYM t.symtab⟩,
      ⟨.SHT_STRTAB, 0, 0, .ELF_T_BYTE (["ER_RO", ".dynamic", ".hash", ".version_d", ".version", ".strtab",
        ".dynsym", ".shstrtab"].foldl (fun s n => appendString s n.toUTF8.toList) (appendString [] []))⟩] }

end

/-! ### What the tables say -/

/-- Symbol `i + 1` belongs to export `i`. -/
def SymbolOf (strtab : Bytes) (i : ℕ) (e : Export) (s : Elf32_Sym) : Prop :=
  match e.name with
  | none => s.st_name = 0 ∧ s.st_value = 0
  | some n => s.st_value = UInt32.ofNat (4 * i) ∧ ∃ rest, strtab.drop s.st_name = n.chars ++ 0 :: rest

theorem SymbolOf.append {strtab : Bytes} {i : ℕ} {e : Export} {s : Elf32_Sym} (h : SymbolOf strtab i e s)
    (more : Bytes) : SymbolOf (strtab ++ more) i e s := by
  unfold SymbolOf at h ⊢
  cases hn : e.name with
  | none =>
    rw [hn] at h
    exact h
  | some n =>
    rw [hn] at h
    obtain ⟨hv, rest, hrest⟩ := h
    have hle : s.st_name ≤ strtab.length := by
      by_contra hlt
      rw [List.drop_eq_nil_of_le (by omega)] at hrest
      cases hc : n.chars <;> rw [hc] at hrest <;> cases hrest
    refine ⟨hv, rest ++ more, ?_⟩
    rw [List.drop_append_of_le_length hle, hrest, List.append_assoc, List.cons_append]

/-- The tables after the loop over `es`. -/
structure TablesOf (es : List Export) (t : DsoTables) : Prop where
  ordinals : t.ordinalArray = (List.range es.length).map fun i => UInt32.ofNat (i + 1)
  strtab_head : ∃ rest, t.strtab = 0 :: rest
  symtab_length : t.symtab.length = es.length + 1
  symtab_head : t.symtab[0]? = some clearedSym
  symtab_tail : ∀ i e, es[i]? = some e → ∃ s, t.symtab[i + 1]? = some s ∧ SymbolOf t.strtab i e s

section
variable {epocVersion : ℕ} {elf_hash : CString → ℕ}

theorem tablesOf_emptyTables (n : ℕ) : TablesOf [] (emptyTables n) where
  ordinals := rfl
  strtab_head := ⟨[], rfl⟩
  symtab_length := rfl
  symtab_head := rfl
  symtab_tail := by simp

/-- One more symbol keeps the tables in step with the exports. -/
theorem TablesOf.writeSymbol {es : List Export} {t : DsoTables} (h : TablesOf es t) (e : Export) :
    TablesOf (es ++ [e]) (writeSymbol epocVersion elf_hash t (e, es.length)) := by
  obtain ⟨hord, hstr, hlen, hhead, htail⟩ := h
  -- the string table only grows, so the older symbols keep their names
  obtain ⟨more, hmore⟩ : ∃ more, (Elf.writeSymbol epocVersion elf_hash t (e, es.length)).strtab =
      t.strtab ++ more := by
    cases hn : e.name with
    | none => exact ⟨[], by simp only [Elf.writeSymbol, hn, List.append_nil]⟩
    | some n => exact ⟨n.chars ++ [0], by simp only [Elf.writeSymbol, hn, appendString]⟩
  obtain ⟨s, hs, hsym⟩ : ∃ s, (Elf.writeSymbol epocVersion elf_hash t (e, es.length)).symtab =
      t.symtab ++ [s] ∧
      SymbolOf (Elf.writeSymbol epocVersion elf_hash t (e, es.length)).strtab es.length e s := by
    cases hn : e.name with
    | none =>
      refine ⟨clearedSym, by simp only [Elf.writeSymbol, hn], ?_⟩
      rw [SymbolOf, hn]
      exact ⟨rfl, rfl⟩
    | some n =>
      refine ⟨exportSym epocVersion t.strtab es.length e, by simp only [Elf.writeSymbol, hn], ?_⟩
      rw [SymbolOf, hn]
      refine ⟨rfl, [], ?_⟩
      simp only [Elf.writeSymbol, hn, appendString, exportSym]
      rw [List.drop_left' rfl]
  have hordinals : (Elf.writeSymbol epocVersion elf_hash t (e, es.length)).ordinalArray =
      t.ordinalArray ++ [UInt32.ofNat (es.length + 1)] := by
    cases hn : e.name <;> simp only [Elf.writeSymbol, hn]
  refine ⟨?_, ?_, ?_, ?_, ?_⟩
  · rw [hordinals, hord, List.length_append, List.length_singleton, List.range_succ, List.map_append]
    rfl
  · obtain ⟨rest, hrest⟩ := hstr
    exact ⟨rest ++ more, by rw [hmore, hrest]; rfl⟩
  · rw [hs, List.length_append, hlen, List.length_append]
    rfl
  · rw [hs, List.getElem?_append_left (by omega)]
    exact hhead
  · intro i d hd
    rw [hs]
    by_cases hi : i < es.length
    · rw [List.getElem?_append_left hi] at hd
      obtain ⟨s', hs', hsym'⟩ := htail i d hd
      refine ⟨s', ?_, ?_⟩
      · rw [List.getElem?_append_left (by omega)]
        exact hs'
      · rw [hmore]
        exact hsym'.append more
    · have hie : i = es.length := by
        have := (List.getElem?_eq_some_iff.mp hd).1
        rw [List.length_append, List.length_singleton] at this
        omega
      subst hie
      rw [List.getElem?_append_right le_rfl, Nat.sub_self] at hd
      cases hd
      refine ⟨s, ?_, hsym⟩
      rw [List.getElem?_append_right (by omega), hlen, Nat.sub_self]
      rfl

variable (epocVersion) (elf_hash)

variable (exports : List Export)

theorem tablesOf_dsoTables : TablesOf exports (dsoTables epocVersion elf_hash exports) := by
  have h : ∀ es : List Export, TablesOf es
      (es.zipIdx.foldl (writeSymbol epocVersion elf_hash) (emptyTables exports.length)) := by
    intro es
    induction es using List.reverseRecOn with
    | nil => exact tablesOf_emptyTables _
    | append_singleton es e ih =>
      rw [List.zipIdx_append, List.foldl_append]
      have hz : [e].zipIdx (0 + es.length) = [(e, es.length)] := by simp
      rw [hz]
      exact ih.writeSymbol e
  exact h exports

/-! ### The reader on the written file -/

theorem strptr_writeDso (basename soname : CString) {off : ℕ} {n : Bytes} {rest : Bytes} (hn : 0 ∉ n)
    (h : (dsoTables epocVersion elf_hash exports).strtab.drop off = n ++ 0 :: rest) :
    elf_strptr (writeDso epocVersion elf_hash exports basename soname) 6 off = some n := by
  set strtab := (dsoTables epocVersion elf_hash exports).strtab with hstrtab
  obtain ⟨more, hmore⟩ : ∃ more, finishStrtab epocVersion strtab basename.chars soname.chars =
      strtab ++ more := by
    simp only [finishStrtab, appendString, List.append_assoc]
    exact ⟨_, rfl⟩
  have hlt : off < strtab.length := by
    by_contra hge
    rw [List.drop_eq_nil_of_le (by omega)] at h
    cases n <;> cases h
  have hdrop : (strtab ++ more).drop off = n ++ 0 :: (rest ++ more) := by
    rw [List.drop_append_of_le_length hlt.le, h, List.append_assoc, List.cons_append]
  simp only [elf_strptr, writeDso, ← hstrtab, hmore, List.getElem?_cons_succ, List.getElem?_cons_zero,
    Nat.reduceSub, hdrop]
  rw [if_pos (by rw [List.length_append]; omega), readCString_append ⟨n, hn⟩ (rest ++ more)]

/-- The name the reader sees for an export: a hole has the empty one. -/
def Export.shownName (e : Export) : Bytes :=
  match e.name with
  | none => []
  | some n => n.chars

theorem Export.shownName_noNul (e : Export) : 0 ∉ e.shownName := by
  unfold shownName
  cases e.name with
  | none => exact List.not_mem_nil
  | some n => exact n.noNul

theorem strptr_null (basename soname : CString) :
    elf_strptr (writeDso epocVersion elf_hash exports basename soname) 6 0 = some [] := by
  obtain ⟨rest, hrest⟩ := (tablesOf_dsoTables epocVersion elf_hash exports).strtab_head
  exact strptr_writeDso epocVersion elf_hash exports basename soname List.not_mem_nil (by rw [hrest]; rfl)

theorem strptr_symbol (basename soname : CString) {i : ℕ} {e : Export} (he : exports[i]? = some e) :
    ∃ s, (dsoTables epocVersion elf_hash exports).symtab[i + 1]? = some s ∧
      (∀ n, e.name = some n → s.st_value = UInt32.ofNat (4 * i)) ∧
      elf_strptr (writeDso epocVersion elf_hash exports basename soname) 6 s.st_name =
        some e.shownName := by
  obtain ⟨s, hs, hsym⟩ := (tablesOf_dsoTables epocVersion elf_hash exports).symtab_tail i e he
  refine ⟨s, hs, ?_⟩
  unfold SymbolOf at hsym
  unfold Export.shownName
  cases hn : e.name with
  | none =>
    rw [hn] at hsym
    refine ⟨fun n h => absurd h (by simp), ?_⟩
    rw [hsym.1]
    exact strptr_null epocVersion elf_hash exports basename soname
  | some n =>
    rw [hn] at hsym
    obtain ⟨hv, rest, hrest⟩ := hsym
    exact ⟨fun _ _ => hv, strptr_writeDso epocVersion elf_hash exports basename soname n.noNul hrest⟩

/-- The test `findSymbol` makes on a symbol whose string is known. -/
theorem strcmp_test {name : Bytes} (hn : 0 ∉ name) (symbol : CString) :
    strcmpChars name symbol.chars = 0 ↔ name = symbol.chars := by
  constructor
  · exact strcmpChars_eq_zero hn symbol.noNul
  · rintro rfl
    exact strcmpChars_self _

end

section
variable (epocVersion : ℕ) (elf_hash : CString → ℕ) (exports : List Export) (basename soname : CString)

def dynsymSection : Section :=
  ⟨.SHT_DYNSYM, 0, 6, .ELF_T_SYM (dsoTables epocVersion elf_hash exports).symtab⟩

theorem findSection_dynsym :
    findSection (writeDso epocVersion elf_hash exports basename soname) .SHT_DYNSYM =
      some (dynsymSection epocVersion elf_hash exports) := rfl

/-- The test of `findSymbol`. -/
def symbolTest (symbol : CString) (sym : Elf32_Sym) : Bool :=
  match elf_strptr (writeDso epocVersion elf_hash exports basename soname) 6 sym.st_name with
  | none => false
  | some name => strcmpChars name symbol.chars = 0

variable (symbol : CString)

theorem findSymbol_dynsym :
    findSymbol (writeDso epocVersion elf_hash exports basename soname)
        (dynsymSection epocVersion elf_hash exports) symbol =
      (dsoTables epocVersion elf_hash exports).symtab.find?
        (symbolTest epocVersion elf_hash exports basename soname symbol) := rfl

theorem symbolTest_at {j : ℕ} {s : Elf32_Sym} (hs : (dsoTables epocVersion elf_hash exports).symtab[j]? = some s) :
    symbolTest epocVersion elf_hash exports basename soname symbol s = true ↔
      (j = 0 ∧ symbol.chars = []) ∨
        ∃ i e, j = i + 1 ∧ exports[i]? = some e ∧ e.shownName = symbol.chars := by
  have ht := tablesOf_dsoTables epocVersion elf_hash exports
  cases j with
  | zero =>
    rw [ht.symtab_head] at hs
    cases hs
    have h0 : elf_strptr (writeDso epocVersion elf_hash exports basename soname) 6 clearedSym.st_name =
        some [] := strptr_null epocVersion elf_hash exports basename soname
    rw [symbolTest, h0]
    simp only [decide_eq_true_eq, strcmp_test List.not_mem_nil symbol]
    constructor
    · intro h
      exact Or.inl ⟨trivial, h.symm⟩
    · rintro (⟨-, h⟩ | ⟨i, e, h, -⟩)
      · exact h.symm
      · omega
  | succ i =>
    have hi : i < exports.length := by
      have := (List.getElem?_eq_some_iff.mp hs).1
      rw [ht.symtab_length] at this
      omega
    obtain ⟨s', hs', -, hstr⟩ := strptr_symbol epocVersion elf_hash exports basename soname (List.getElem?_eq_getElem hi)
    rw [hs] at hs'
    cases hs'
    rw [symbolTest, hstr]
    simp only [decide_eq_true_eq, strcmp_test exports[i].shownName_noNul symbol]
    constructor
    · exact fun h => Or.inr ⟨i, _, rfl, List.getElem?_eq_getElem hi, h⟩
    · rintro (⟨h, -⟩ | ⟨i', e, hii, he, h⟩)
      · omega
      · obtain rfl : i' = i := by omega
        rw [List.getElem?_eq_getElem hi] at he
        cases he
        exact h

theorem shownName_eq {e : Export} {symbol : CString} (hne : symbol.chars ≠ []) :
    e.shownName = symbol.chars ↔ e.name = some symbol := by
  unfold Export.shownName
  cases e.name with
  | none => simp [Ne.symm hne]
  | some n =>
    simp only [Option.some.injEq]
    exact ⟨CString.ext_chars, fun h => by rw [h]⟩

theorem findSymbol_empty (h0 : symbol.chars = []) :
    findSymbol (writeDso epocVersion elf_hash exports basename soname)
      (dynsymSection epocVersion elf_hash exports) symbol = some clearedSym := by
  have hhead := (tablesOf_dsoTables epocVersion elf_hash exports).symtab_head
  rw [findSymbol_dynsym, List.find?_eq_some_iff_getElem]
  obtain ⟨hlt, heq⟩ := List.getElem?_eq_some_iff.mp hhead
  refine ⟨?_, 0, hlt, heq, fun j hj => absurd hj (Nat.not_lt_zero j)⟩
  exact (symbolTest_at epocVersion elf_hash exports basename soname symbol hhead).mpr (Or.inl ⟨rfl, h0⟩)

theorem findSymbol_missing (hne : symbol.chars ≠ []) (hmiss : ∀ e ∈ exports, e.name ≠ some symbol) :
    findSymbol (writeDso epocVersion elf_hash exports basename soname)
      (dynsymSection epocVersion elf_hash exports) symbol = none := by
  rw [findSymbol_dynsym, List.find?_eq_none]
  intro s hs htest
  obtain ⟨j, hj⟩ := List.getElem?_of_mem hs
  rcases (symbolTest_at epocVersion elf_hash exports basename soname symbol hj).mp htest with
    ⟨-, h0⟩ | ⟨i, e, -, he, hname⟩
  · exact hne h0
  · exact hmiss e (List.mem_of_getElem? he) ((shownName_eq hne).mp hname)

/-- A named export is found at its own symbol. -/
theorem findSymbol_export (hne : symbol.chars ≠ [])
    (hnd : (exports.filterMap Export.name).Nodup) {k : ℕ} {e : Export} (he : exports[k]? = some e)
    (hname : e.name = some symbol) :
    ∃ s, findSymbol (writeDso epocVersion elf_hash exports basename soname)
        (dynsymSection epocVersion elf_hash exports) symbol = some s ∧
      s.st_value = UInt32.ofNat (4 * k) := by
  obtain ⟨s, hs, hv, -⟩ := strptr_symbol epocVersion elf_hash exports basename soname he
  refine ⟨s, ?_, hv symbol hname⟩
  rw [findSymbol_dynsym, List.find?_eq_some_iff_getElem]
  obtain ⟨hlt, heq⟩ := List.getElem?_eq_some_iff.mp hs
  refine ⟨?_, k + 1, hlt, heq, fun j hj => ?_⟩
  · exact (symbolTest_at epocVersion elf_hash exports basename soname symbol hs).mpr
      (Or.inr ⟨k, e, rfl, he, (shownName_eq hne).mpr hname⟩)
  · rw [Bool.not_eq_true', ← Bool.not_eq_true]
    intro htest
    rcases (symbolTest_at epocVersion elf_hash exports basename soname symbol
      (List.getElem?_eq_getElem (hj.trans hlt))).mp htest with ⟨-, h0⟩ | ⟨i, d, hji, hd, hdn⟩
    · exact hne h0
    · -- an earlier export of the same name
      rw [shownName_eq hne] at hdn
      obtain ⟨hik, rfl⟩ := List.getElem?_eq_some_iff.mp hd
      obtain ⟨hkl, rfl⟩ := List.getElem?_eq_some_iff.mp he
      rw [List.Nodup, List.pairwise_filterMap, List.pairwise_iff_getElem] at hnd
      exact hnd i k hik hkl (by omega) symbol hdn symbol hname rfl

/-! ### Ordinals -/

theorem drop_flatMap_words (ws : List UInt32) (k : ℕ) :
    (ws.flatMap fun w => leBytes 4 w.toNat).drop (4 * k) = (ws.drop k).flatMap fun w => leBytes 4 w.toNat := by
  induction k generalizing ws with
  | zero => rfl
  | succ k ih =>
    cases ws with
    | nil => simp
    | cons w ws =>
      have h4 : (leBytes 4 w.toNat).length = 4 := length_leBytes _ _
      rw [List.flatMap_cons, Nat.mul_succ, Nat.add_comm, ← List.drop_drop, List.drop_left' h4, ih,
        List.drop_succ_cons]

theorem ordinal_at {k : ℕ} (hk : k ≤ exports.length) (hlt : exports.length < 65536) :
    ofLE (((elf_rawdata ⟨.SHT_PROGBITS, 0, 0, .ELF_T_WORD
      ((dsoTables epocVersion elf_hash exports).ordinalArray ++ [0])⟩).drop (4 * k)).take 4) =
      if k < exports.length then k + 1 else 0 := by
  have hord := (tablesOf_dsoTables epocVersion elf_hash exports).ordinals
  rw [elf_rawdata, drop_flatMap_words, hord]
  set ords := (List.range exports.length).map fun i => UInt32.ofNat (i + 1)
  have hol : ords.length = exports.length := by rw [List.length_map, List.length_range]
  by_cases hkn : k < exports.length
  · have hget : (ords ++ [0])[k]? = some (UInt32.ofNat (k + 1)) := by
      rw [List.getElem?_append_left (by omega), List.getElem?_map, List.getElem?_range hkn]
      rfl
    obtain ⟨hl, hget⟩ := List.getElem?_eq_some_iff.mp hget
    rw [if_pos hkn, List.drop_eq_getElem_cons hl, hget, List.flatMap_cons,
      List.take_left' (length_leBytes _ _), UInt32.toNat_ofNat', Nat.mod_eq_of_lt (by omega)]
    exact ofLE_leBytes_of_lt (by omega)
  · rw [if_neg hkn, List.drop_left' (by omega)]
    rfl

theorem length_ordinals :
    (elf_rawdata ⟨.SHT_PROGBITS, 0, 0, .ELF_T_WORD
      ((dsoTables epocVersion elf_hash exports).ordinalArray ++ [0])⟩).length =
      4 * (exports.length + 1) := by
  have hord := (tablesOf_dsoTables epocVersion elf_hash exports).ordinals
  have hwords (ws : List UInt32) : (ws.flatMap fun w => leBytes 4 w.toNat).length = 4 * ws.length := by
    simp [List.length_flatMap, Nat.mul_comm]
  rw [elf_rawdata, hwords, hord, List.length_append, List.length_map, List.length_range]
  rfl

/-- Once the symbol is found, its value leads to the word of the ordinal section. -/
theorem fixImportRelocation_found (offset : ℕ) (out : Bytes) {symbol : CString} {s : Elf32_Sym} {k : ℕ}
    (hk : k ≤ exports.length) (hlt : exports.length < 65536)
    (hfind : findSymbol (writeDso epocVersion elf_hash exports basename soname)
      (dynsymSection epocVersion elf_hash exports) symbol = some s)
    (hv : s.st_value = UInt32.ofNat (4 * k)) :
    fixImportRelocation offset out symbol (some (writeDso epocVersion elf_hash exports basename soname)) =
      (true, fixImportRelocationOrdinal offset out (if k < exports.length then k + 1 else 0)) := by
  have hprog : findSection (writeDso epocVersion elf_hash exports basename soname) .SHT_PROGBITS =
      some ⟨.SHT_PROGBITS, 0, 0, .ELF_T_WORD
        ((dsoTables epocVersion elf_hash exports).ordinalArray ++ [0])⟩ := rfl
  have haddr : (s.st_value - 0).toNat = 4 * k := by
    rw [UInt32.sub_zero, hv, UInt32.toNat_ofNat', Nat.mod_eq_of_lt (by omega)]
  have hnot : ¬ 4 * (exports.length + 1) ≤ 4 * k := by omega
  simp only [fixImportRelocation, findSection_dynsym, hfind, hprog, haddr, length_ordinals, hnot, if_false,
    ordinal_at epocVersion elf_hash exports hk hlt]

/-! ### Imports by ordinal -/

/-- `out` with the word at `offset` replaced. -/
def patched (offset : ℕ) (out : Bytes) (v : ℕ) : Bytes :=
  out.take offset ++ leBytes 4 (v % 2 ^ 32) ++ out.drop (offset + 4)

/-- What `fixImportRelocation` owes to the site at `offset`: the ordinal of an exported name below the
site's old word, a failure for any other name. -/
def ResolvesImport (elf : ElfFile) (exports : List Export) (symbol : CString) (offset : ℕ) (out : Bytes) :
    Prop :=
  (∀ k e, exports[k]? = some e → e.name = some symbol →
    fixImportRelocation offset out symbol (some elf) =
      (true, patched offset out (k + 1 + ofLE ((out.drop offset).take 4) * 2 ^ 16))) ∧
  ((∀ e ∈ exports, e.name ≠ some symbol) →
    fixImportRelocation offset out symbol (some elf) = (false, out))

theorem patched_injective {offset v w : ℕ} {out : Bytes} (h : patched offset out v = patched offset out w) :
    v % 2 ^ 32 = w % 2 ^ 32 := by
  unfold patched at h
  rw [List.append_assoc, List.append_assoc, List.append_cancel_left_eq] at h
  have hw := (List.append_inj h (by simp)).1
  have hv : ofLE (leBytes 4 (v % 2 ^ 32)) = v % 2 ^ 32 := ofLE_leBytes_of_lt (by omega)
  rw [hw, ofLE_leBytes_of_lt (by omega)] at hv
  exact hv.symm

theorem fixImportRelocation_null (offset : ℕ) (out : Bytes) {symbol : CString} (h0 : symbol.chars = [])
    (hlt : exports.length < 65536) :
    fixImportRelocation offset out symbol (some (writeDso epocVersion elf_hash exports basename soname)) =
      (true, patched offset out ((if 0 < exports.length then 1 else 0) +
        ofLE ((out.drop offset).take 4) * 2 ^ 16)) :=
  fixImportRelocation_found epocVersion elf_hash exports basename soname offset out (Nat.zero_le _) hlt
    (findSymbol_empty epocVersion elf_hash exports basename soname symbol h0) rfl

/-- **Imports by ordinal.**  Of a list of distinctly named exports, the written library resolves a name
at every site as its place in the list says exactly if the name is not empty, or the first export has
it: the empty name is found at the null symbol in front of the exports. -/
theorem resolvesImport_iff (symbol : CString) (offset : ℕ) (out : Bytes)
    (hnd : (exports.filterMap Export.name).Nodup) (hlt : exports.length < 65536) :
    ResolvesImport (writeDso epocVersion elf_hash exports basename soname) exports symbol offset out ↔
      symbol.chars ≠ [] ∨ ∃ e, exports[0]? = some e ∧ e.name = some symbol := by
  constructor
  · rintro ⟨hfound, hmiss⟩
    by_contra hno
    rw [not_or, not_not] at hno
    obtain ⟨h0, hfirst⟩ := hno
    have hnull := fixImportRelocation_null epocVersion elf_hash exports basename soname offset out h0 hlt
    by_cases hex : ∃ e ∈ exports, e.name = some symbol
    · -- exported, but not first: the first ordinal is written
      obtain ⟨e, he, hen⟩ := hex
      obtain ⟨k, hk⟩ := List.getElem?_of_mem he
      have hkl := (List.getElem?_eq_some_iff.mp hk).1
      have hk0 : k ≠ 0 := by
        rintro rfl
        exact hfirst ⟨e, hk, hen⟩
      have hboth := hfound k e hk hen
      rw [hnull, if_pos (by omega)] at hboth
      have heq := patched_injective (Prod.mk.inj hboth).2
      omega
    · have hboth := hmiss fun e he hen => hex ⟨e, he, hen⟩
      rw [hnull] at hboth
      cases (Prod.mk.inj hboth).1
  · intro hcond
    have hname : ∀ k e, exports[k]? = some e → e.name = some symbol →
        ∃ s, findSymbol (writeDso epocVersion elf_hash exports basename soname)
          (dynsymSection epocVersion elf_hash exports) symbol = some s ∧
          s.st_value = UInt32.ofNat (4 * k) := by
      intro k e hk hen
      by_cases h0 : symbol.chars = []
      · obtain ⟨d, hd, hdn⟩ := hcond.resolve_left (not_not.mpr h0)
        have hk0 : k = 0 := by
          obtain ⟨hkl, rfl⟩ := List.getElem?_eq_some_iff.mp hk
          obtain ⟨h0l, rfl⟩ := List.getElem?_eq_some_iff.mp hd
          by_contra hk0
          rw [List.Nodup, List.pairwise_filterMap, List.pairwise_iff_getElem] at hnd
          exact hnd 0 k h0l hkl (by omega) symbol hdn symbol hen rfl
        subst hk0
        exact ⟨clearedSym, findSymbol_empty epocVersion elf_hash exports basename soname symbol h0, rfl⟩
      · exact findSymbol_export epocVersion elf_hash exports basename soname symbol h0 hnd hk hen
    constructor
    · intro k e hk hen
      obtain ⟨s, hs, hv⟩ := hname k e hk hen
      have hkl := (List.getElem?_eq_some_iff.mp hk).1
      rw [fixImportRelocation_found epocVersion elf_hash exports basename soname offset out hkl.le hlt hs hv,
        if_pos hkl]
      rfl
    · intro hmiss
      have hne : symbol.chars ≠ [] := by
        rcases hcond with hne | ⟨e, he, hen⟩
        · exact hne
        · exact absurd hen (hmiss e (List.mem_of_getElem? he))
      have hnone := findSymbol_missing epocVersion elf_hash exports basename soname symbol hne hmiss
      simp only [fixImportRelocation, findSection_dynsym, hnone]

end

def emptyName : CString := ⟨[], by decide⟩
def exportA : Export := ⟨some ⟨[0x61], by decide⟩, 0x8000, true, 0⟩

/-- The empty name is not exported, yet it resolves to the first ordinal. -/
theorem fixImportRelocation_emptyName :
    fixImportRelocation 0 [0, 0, 0, 0] emptyName (some (writeDso 0x904 (fun _ => 0) [exportA]
      ⟨[0x64], by decide⟩ ⟨[0x64], by decide⟩)) = (true, [1, 0, 0, 0]) ∧
    ¬ ResolvesImport (writeDso 0x904 (fun _ => 0) [exportA] ⟨[0x64], by decide⟩ ⟨[0x64], by decide⟩)
      [exportA] emptyName 0 [0, 0, 0, 0] := by
  refine ⟨by decide, fun h => ?_⟩
  have hfalse := h.2 (by decide)
  revert hfalse
  decide

theorem resolvesImport_iff_exportA :
    ResolvesImport (writeDso 0x904 (fun _ => 0) [exportA] ⟨[0x64], by decide⟩ ⟨[0x64], by decide⟩)
      [exportA] ⟨[0x61], by decide⟩ 0 [7, 0, 0, 0] ↔
      ([0x61] : Bytes) ≠ [] ∨ ∃ e, [exportA][0]? = some e ∧ e.name = some ⟨[0x61], by decide⟩ :=
  resolvesImport_iff 0x904 (fun _ => 0) [exportA] _ _ ⟨[0x61], by decide⟩ 0 [7, 0, 0, 0] (by decide) (by decide)

end GnuPoc.Elf
