import GnuPoc.Elf.DefFile
import Mathlib.Data.List.DropRight

/-!
# GnuPoc.Elf.Ordinals — the ordinals that texts give to the export table

A text is a list of entries: what number stands in it, and what is passed on to `addExportOrdinal`.  A number goes through
a `long` and an `int` to an unsigned ordinal, and `exports[ordinal - 1]` is not checked.
-/

namespace GnuPoc.Elf

open GnuPoc.Lib

/-! ### Slots -/

namespace ExportList

/-- The index `ordinal - 1`, which is unsigned. -/
def slotIndex (ordinal : ℕ) : ℕ := (UInt32.ofNat ordinal - 1).toNat

/-- `addExportOrdinal`; `none` where `exports[ordinal - 1]` is not in the vector. -/
def enterOrdinal (l : ExportList) (c : FrozenExport) : Option ExportList :=
  let exports := l.exports ++ List.replicate (c.ordinal - l.exports.length) hole
  if slotIndex c.ordinal < exports.length then
    some ⟨exports.modify (slotIndex c.ordinal) fun e => { e with name := some c.name, code := c.code, size := c.size },
      max l.presetOrdinals c.ordinal⟩
  else none

theorem slotIndex_eq {ordinal : ℕ} (h1 : 1 ≤ ordinal) (h2 : ordinal < 2 ^ 32) : slotIndex ordinal = ordinal - 1 := by
  have hle : (1 : UInt32) ≤ UInt32.ofNat ordinal := by
    rw [UInt32.le_iff_toNat_le, UInt32.toNat_ofNat_of_lt' h2]
    exact h1
  rw [slotIndex, UInt32.toNat_sub_of_le _ _ hle, UInt32.toNat_ofNat_of_lt' h2]
  rfl

/-- An ordinal from `1` on has its slot. -/
theorem enterOrdinal_eq (l : ExportList) {c : FrozenExport} (h1 : 1 ≤ c.ordinal) (h2 : c.ordinal < 2 ^ 32) :
    l.enterOrdinal c = some (l.addExportOrdinal c) := by
  rw [enterOrdinal, slotIndex_eq h1 h2, if_pos]
  · rfl
  · rw [List.length_append, List.length_replicate]
    omega

theorem foldlM_enterOrdinal {cs : List FrozenExport} (h : ∀ c ∈ cs, 1 ≤ c.ordinal ∧ c.ordinal < 2 ^ 32)
    (l : ExportList) : cs.foldlM enterOrdinal l = some (cs.foldl addExportOrdinal l) := by
  induction cs generalizing l with
  | nil => rfl
  | cons c cs ih =>
    obtain ⟨h1, h2⟩ := h c List.mem_cons_self
    rw [List.foldlM_cons, enterOrdinal_eq l h1 h2]
    exact ih (fun d hd => h d (List.mem_cons_of_mem _ hd)) _

theorem presetOrdinals_foldl (cs : List FrozenExport) (l : ExportList) :
    (cs.foldl addExportOrdinal l).presetOrdinals = cs.foldl (fun largest c => max largest c.ordinal) l.presetOrdinals := by
  induction cs generalizing l with
  | nil => rfl
  | cons c cs ih => exact ih _

end ExportList

/-! ### Numbers -/

/-- The number that stands in front, whatever its size. -/
def writtenInt (s : Bytes) : Option ℤ :=
  let s := skipSpaces s
  let digits := (if s.head? = some 45 ∨ s.head? = some 43 then s.tail else s).takeWhile isdigit
  if digits = [] then none else some (if s.head? = some 45 then -digitsValue digits else digitsValue digits)

theorem scanInt_written (s : Bytes) : (scanInt s).map Prod.fst = (writtenInt s).map toInt := by
  rw [scanInt, writtenInt]
  generalize (if (skipSpaces s).head? = some 45 ∨ (skipSpaces s).head? = some 43 then (skipSpaces s).tail
    else skipSpaces s) = digits
  by_cases h : digits.takeWhile isdigit = []
  · rw [if_pos h, if_pos h]
    rfl
  · rw [if_neg h, if_neg h]
    rfl

theorem atoi_written (s : Bytes) : atoi s = ((writtenInt s).map toInt).getD 0 := by
  rw [← scanInt_written, atoi]
  cases scanInt s with
  | none => rfl
  | some r => rfl

/-- The ordinal that a number becomes. -/
def ordinalOf (v : ℤ) : ℕ := (toInt v).toUInt32.toNat

theorem ordinalOf_lt (v : ℤ) : ordinalOf v < 2 ^ 32 := UInt32.toNat_lt _

theorem ordinalOf_eq (v : ℤ) : (ordinalOf v : ℤ) = max (-2 ^ 63) (min v (2 ^ 63 - 1)) % 2 ^ 32 := by
  have hbits : ordinalOf v = (BitVec.ofInt 32 (max (-2 ^ 63) (min v (2 ^ 63 - 1)))).toNat := rfl
  rw [hbits, BitVec.toNat_ofInt]
  omega

/-- The number of a slot: positive, and not cut off to zero. -/
def IsOrdinal (v : ℤ) : Prop := 0 < v ∧ ¬ (2 ^ 32 ∣ v ∧ v < 2 ^ 63)

instance (v : ℤ) : Decidable (IsOrdinal v) := inferInstanceAs (Decidable (_ ∧ _))

theorem ordinalOf_pos_iff {v : ℤ} (h : 0 < v) : 1 ≤ ordinalOf v ↔ IsOrdinal v := by
  have heq := ordinalOf_eq v
  have hlt := ordinalOf_lt v
  rw [IsOrdinal]
  omega

/-! ### Entries -/

/-- A place of a text where an ordinal is expected. -/
structure OrdinalEntry where
  /-- the number that is there, if there is one -/
  written : Option ℤ
  /-- what is passed on to `addExportOrdinal` -/
  call : Option FrozenExport

def OrdinalEntry.calls (entries : List OrdinalEntry) : List FrozenExport := entries.filterMap OrdinalEntry.call

/-- What is passed on has its slot, the largest ordinal is kept, and only a positive number is passed on. -/
structure OrdinalsSafe (l : ExportList) (entries : List OrdinalEntry) : Prop where
  enters : ∃ l', (OrdinalEntry.calls entries).foldlM ExportList.enterOrdinal l = some l' ∧
    l'.presetOrdinals =
      (OrdinalEntry.calls entries).foldl (fun largest c => max largest c.ordinal) l.presetOrdinals
  positive : ∀ e ∈ entries, ∀ c, e.call = some c → 1 ≤ c.ordinal
  written : ∀ e ∈ entries, ∀ v, (e.written = none ∨ e.written = some v ∧ v ≤ 0) → e.call = none

/-- What is passed on is the number that is there, or zero for none. -/
def OrdinalEntry.Reads (e : OrdinalEntry) : Prop := ∀ c, e.call = some c → c.ordinal = (e.written.map ordinalOf).getD 0

/-- The ordinals are safe exactly when each one that is used is an ordinal. -/
theorem ordinalsSafe_iff {entries : List OrdinalEntry} (hreads : ∀ e ∈ entries, e.Reads) (l : ExportList) :
    OrdinalsSafe l entries ↔ ∀ e ∈ entries, ∀ c, e.call = some c → ∃ v, e.written = some v ∧ IsOrdinal v := by
  constructor
  · intro h e he c hc
    have hordinal := hreads e he c hc
    have hpos := h.positive e he c hc
    cases hw : e.written with
    | none =>
      rw [hw] at hordinal
      simp at hordinal
      omega
    | some v =>
      rw [hw] at hordinal
      have hv : 0 < v := by
        by_contra hneg
        have hnone := h.written e he v (.inr ⟨hw, by omega⟩)
        rw [hnone] at hc
        cases hc
      rw [hordinal] at hpos
      exact ⟨v, rfl, (ordinalOf_pos_iff hv).mp hpos⟩
  · intro h
    have hcalls : ∀ e ∈ entries, ∀ c, e.call = some c → 1 ≤ c.ordinal ∧ c.ordinal < 2 ^ 32 := by
      intro e he c hc
      obtain ⟨v, hw, hv⟩ := h e he c hc
      have hordinal := hreads e he c hc
      rw [hw] at hordinal
      rw [hordinal]
      exact ⟨(ordinalOf_pos_iff hv.1).mpr hv, ordinalOf_lt v⟩
    refine ⟨⟨_, ExportList.foldlM_enterOrdinal ?_ l, ExportList.presetOrdinals_foldl _ l⟩, ?_, ?_⟩
    · intro c hc
      obtain ⟨e, he, hcall⟩ := List.mem_filterMap.mp hc
      exact hcalls e he c hcall
    · intro e he c hc
      exact (hcalls e he c hc).1
    · intro e he v hbad
      by_contra hne
      obtain ⟨c, hc⟩ := Option.ne_none_iff_exists'.mp hne
      obtain ⟨v', hw, hv'⟩ := h e he c hc
      rcases hbad with hnone | ⟨hsome, hle⟩
      · rw [hw] at hnone
        cases hnone
      · rw [hw] at hsome
        have hv : v' = v := Option.some.inj hsome
        exact absurd hv'.1 (by omega)

/-! ### `.def` files -/

/-- The lines of a `.def` file below its header, without comments and empty lines. -/
def entryLines : Bool → List Bytes → List Bytes
  | _, [] => []
  | header, chunk :: chunks =>
    let ptr := stripEol (stripEol (readCString chunk))
    if ptr.head? = some 59 then entryLines header chunks
    else if ptr = [] then entryLines header chunks
    else if header then ptr :: entryLines true chunks
    else if ptr = chars "EXPORTS" then entryLines true chunks
    else []

/-- The number of a line: behind a name and an `@`, in front of any comment. -/
def writtenOrdinal (line : Bytes) : Option ℤ :=
  let s := skipSpaces (line.takeWhile (· ≠ 59))
  if s.takeWhile (fun c => !isspace c) = [] then none
  else
    match skipSpaces (s.dropWhile fun c => !isspace c) with
    | 64 :: s => writtenInt s
    | _ => none

def defLinesOf (file : Bytes) : List Bytes := entryLines false (fgetsChunks 500 file)

def defEntry (line : Bytes) : OrdinalEntry := ⟨writtenOrdinal line, parseDefLine line⟩

def defEntries (file : Bytes) : List OrdinalEntry := (defLinesOf file).map defEntry

theorem parseDefChunks_eq (header : Bool) (chunks : List Bytes) (l : ExportList) :
    parseDefChunks header chunks l =
      ((entryLines header chunks).filterMap parseDefLine).foldl ExportList.addExportOrdinal l := by
  induction chunks generalizing header l with
  | nil => rfl
  | cons chunk chunks ih =>
    rw [parseDefChunks, entryLines]
    generalize stripEol (stripEol (readCString chunk)) = ptr
    by_cases hcomment : ptr.head? = some 59
    · rw [if_pos hcomment, if_pos hcomment, ih]
    rw [if_neg hcomment, if_neg hcomment]
    by_cases hempty : ptr = []
    · rw [if_pos hempty, if_pos hempty, ih]
    rw [if_neg hempty, if_neg hempty]
    cases header with
    | true =>
      rw [if_pos rfl, if_pos rfl, List.filterMap_cons]
      cases parseDefLine ptr with
      | none => exact ih true l
      | some c => exact ih true _
    | false =>
      rw [if_neg Bool.false_ne_true, if_neg Bool.false_ne_true]
      by_cases hhead : ptr = chars "EXPORTS"
      · rw [if_pos hhead, if_pos hhead, ih]
      · rw [if_neg hhead, if_neg hhead]
        rfl

theorem parseDefFile_calls (file : Bytes) (l : ExportList) :
    parseDefFile file l = (OrdinalEntry.calls (defEntries file)).foldl ExportList.addExportOrdinal l := by
  rw [parseDefFile, parseDefChunks_eq, OrdinalEntry.calls, defEntries, List.filterMap_map]
  rfl

theorem scanDefLine_written (line : Bytes) :
    (scanDefLine (line.takeWhile (· ≠ 59))).map Prod.snd = (writtenOrdinal line).map toInt := by
  have hidem : ∀ s, skipSpaces (skipSpaces s) = skipSpaces s := fun s => List.dropWhile_idempotent _ s
  rw [scanDefLine, writtenOrdinal, hidem]
  generalize skipSpaces (line.takeWhile (· ≠ 59)) = s
  by_cases hname : s.takeWhile (fun c => !isspace c) = []
  · rw [if_pos hname, if_pos hname]
    rfl
  · rw [if_neg hname, if_neg hname]
    generalize skipSpaces (s.dropWhile fun c => !isspace c) = behind
    rcases behind with _ | ⟨c, rest⟩
    · rfl
    · by_cases hat : c = 64
      · subst hat
        show ((scanInt (skipSpaces rest)).map _).map Prod.snd = (writtenInt rest).map toInt
        rw [← scanInt_written, scanInt_skipSpaces, Option.map_map]
        rfl
      · simp [hat]

theorem parseDefLine_ordinal (line : Bytes) :
    (parseDefLine line).map FrozenExport.ordinal = (writtenOrdinal line).map ordinalOf := by
  have hscan := scanDefLine_written line
  have hordinal : (writtenOrdinal line).map ordinalOf =
      ((writtenOrdinal line).map toInt).map fun n => n.toUInt32.toNat := by
    rw [Option.map_map]
    rfl
  rw [hordinal, ← hscan, parseDefLine]
  cases scanDefLine (line.takeWhile (· ≠ 59)) with
  | none => rfl
  | some r =>
    dsimp only
    split
    · rfl
    · rfl

theorem defEntry_reads (line : Bytes) : (defEntry line).Reads := by
  intro c hc
  have hordinal := parseDefLine_ordinal line
  have hcall : parseDefLine line = some c := hc
  rw [hcall] at hordinal
  show c.ordinal = ((writtenOrdinal line).map ordinalOf).getD 0
  rw [← hordinal]
  rfl

/-! ### `--sysdef` -/

/-- The number of a token: behind the first comma. -/
def sysDefOrdinal (token : Bytes) : Option ℤ := (strchr 44 token).bind fun delim => writtenInt delim.tail

/-- What `parseSysDef` passes on for a token. -/
def sysDefCall (token : Bytes) : Option FrozenExport :=
  (strchr 44 token).map fun delim =>
    ⟨CString.ofBytes (token.takeWhile (· ≠ 44)), (atoi delim.tail).toUInt32.toNat, true, 0⟩

def sysDefEntry (token : Bytes) : OrdinalEntry := ⟨sysDefOrdinal token, sysDefCall token⟩

def sysDefEntries (str : Bytes) : List OrdinalEntry := (strtok 59 str).map sysDefEntry

theorem parseSysDef_calls (str : Bytes) (l : ExportList) :
    parseSysDef str l = (OrdinalEntry.calls (sysDefEntries str)).foldl ExportList.addExportOrdinal l := by
  rw [parseSysDef, OrdinalEntry.calls, sysDefEntries, List.filterMap_map]
  generalize strtok 59 str = tokens
  induction tokens generalizing l with
  | nil => rfl
  | cons token tokens ih =>
    rw [List.foldl_cons, List.filterMap_cons]
    simp only [Function.comp_apply, sysDefEntry, sysDefCall]
    cases strchr 44 token with
    | none => exact ih l
    | some delim => exact ih _

theorem sysDefEntry_reads (token : Bytes) : (sysDefEntry token).Reads := by
  intro c hc
  obtain ⟨delim, hdelim, rfl⟩ := Option.map_eq_some_iff.mp hc
  show (atoi delim.tail).toUInt32.toNat = ((sysDefOrdinal token).map ordinalOf).getD 0
  rw [sysDefOrdinal, hdelim, atoi_written]
  show (((writtenInt delim.tail).map toInt).getD 0).toUInt32.toNat = ((writtenInt delim.tail).map ordinalOf).getD 0
  cases writtenInt delim.tail with
  | none => rfl
  | some v => rfl

/-! ### The claim about both texts -/

/-- Every ordinal designates a slot exactly when every number that is read is one: those behind an `@`, and behind every
comma of `--sysdef` there is one. -/
theorem ordinals_safe_iff (file str : Bytes) (l : ExportList) :
    (OrdinalsSafe l (defEntries file) ↔ ∀ line ∈ defLinesOf file, ∀ v, writtenOrdinal line = some v → IsOrdinal v) ∧
      (OrdinalsSafe l (sysDefEntries str) ↔
        ∀ token ∈ strtok 59 str, 44 ∈ token → ∃ v, sysDefOrdinal token = some v ∧ IsOrdinal v) := by
  constructor
  · rw [ordinalsSafe_iff (by simp [defEntries, defEntry_reads]) l, defEntries, List.forall_mem_map]
    refine forall₂_congr fun line _ => ?_
    have hordinal := parseDefLine_ordinal line
    constructor
    · intro h v hv
      rw [hv] at hordinal
      obtain ⟨c, hc, -⟩ := Option.map_eq_some_iff.mp hordinal
      obtain ⟨v', hv', hslot⟩ := h c hc
      have heq : v = v' := Option.some.inj (hv.symm.trans hv')
      exact heq ▸ hslot
    · intro h c hc
      have hcall : parseDefLine line = some c := hc
      rw [hcall] at hordinal
      obtain ⟨v, hv, -⟩ := Option.map_eq_some_iff.mp hordinal.symm
      exact ⟨v, hv, h v hv⟩
  · rw [ordinalsSafe_iff (by simp [sysDefEntries, sysDefEntry_reads]) l, sysDefEntries, List.forall_mem_map]
    refine forall₂_congr fun token _ => ?_
    have hcall : (∃ c, (sysDefEntry token).call = some c) ↔ 44 ∈ token := by
      simp [sysDefEntry, sysDefCall, strchr]
    exact forall_exists_index.symm.trans (imp_congr_left hcall)

/-- Ordinal zero in a file. -/
theorem def_zero_ordinal :
    ¬ OrdinalsSafe ExportList.empty (defEntries (chars "EXPORTS\r\n\tfoo @ 0 NONAME\r\n")) := by
  intro h
  obtain ⟨l', hrun, -⟩ := h.enters
  have hnone : (OrdinalEntry.calls (defEntries (chars "EXPORTS\r\n\tfoo @ 0 NONAME\r\n"))).foldlM
      ExportList.enterOrdinal ExportList.empty = none := by decide +kernel
  rw [hnone] at hrun
  cases hrun

end GnuPoc.Elf
