import GnuPoc.Rcomp.WriteFile
import Mathlib.Data.List.Nodup

/-!
# GnuPoc.Rcomp.Contents — the parts of a resource file

`WriteResourceFile` streams the resources, puts the index behind them, and goes back to the header and to the
links.  What it leaves is the flags, the header, the resources and the index, each telling the truth about the
others.
-/

namespace GnuPoc.Rcomp

open GnuPoc.Lib

/-! ### The bit array -/

/-- Bit `i` of an array of bits. -/
def bitAt (bytes : Bytes) (i : ℕ) : Bool := (bytes.getD (i / 8) 0).toNat.testBit (i % 8)

theorem bitAt_cons_in {i : ℕ} (b : UInt8) (bytes : Bytes) (h : i < 8) : bitAt (b :: bytes) i = b.toNat.testBit i := by
  rw [bitAt, Nat.div_eq_of_lt h, Nat.mod_eq_of_lt h, List.getD_cons_zero]

theorem bitAt_cons_add (b : UInt8) (bytes : Bytes) (i : ℕ) : bitAt (b :: bytes) (8 + i) = bitAt bytes i := by
  rw [bitAt, bitAt, Nat.add_mod_left, Nat.add_div_left _ (by omega), List.getD_cons_succ]

theorem testBit_buffer {buffer : UInt8} {n : ℕ} (bit : Bool) (hn : n < 8) (hbuffer : buffer.toNat < 2 ^ n) (i : ℕ) :
    (if bit then buffer ||| 1 <<< UInt8.ofNat n else buffer).toNat.testBit i =
      if i = n then bit else buffer.toNat.testBit i := by
  have hself : buffer.toNat.testBit n = false := Nat.testBit_lt_two_pow hbuffer
  by_cases hbit : bit
  · have hpow : 2 ^ n < 256 := Nat.pow_lt_pow_right (by omega) hn
    have hshift : (1 <<< UInt8.ofNat n : UInt8).toNat = 2 ^ n := by
      rw [UInt8.toNat_shiftLeft, UInt8.toNat_ofNat']
      simp only [UInt8.toNat_one, Nat.shiftLeft_eq, Nat.one_mul]
      rw [Nat.mod_eq_of_lt (show n < 2 ^ 8 by omega), Nat.mod_eq_of_lt hn, Nat.mod_eq_of_lt hpow]
    rw [if_pos hbit, UInt8.toNat_or, hshift, Nat.testBit_or, Nat.testBit_two_pow]
    by_cases hi : i = n
    · subst hi
      simp [hbit]
    · simp [hi, Ne.symm hi]
  · rw [if_neg hbit]
    by_cases hi : i = n
    · subst hi
      simp [hbit, hself]
    · simp [hi]

theorem buffer_lt {buffer : UInt8} {n : ℕ} (bit : Bool) (hn : n < 8) (hbuffer : buffer.toNat < 2 ^ n) :
    (if bit then buffer ||| 1 <<< UInt8.ofNat n else buffer).toNat < 2 ^ (n + 1) := by
  apply Nat.lt_pow_two_of_testBit
  intro i hi
  rw [testBit_buffer bit hn hbuffer, if_neg (by omega)]
  exact Nat.testBit_lt_two_pow (hbuffer.trans_le (Nat.pow_le_pow_right (by omega) (by omega)))

/-- The bits of the array are those it is made of, behind the first `n`. -/
theorem bitAt_bitArray (bits : List Bool) : ∀ (buffer : UInt8) (n : ℕ), n < 8 → buffer.toNat < 2 ^ n →
    (bitArray buffer n bits).length = (n + bits.length + 7) / 8 ∧
    (∀ i < n, bitAt (bitArray buffer n bits) i = buffer.toNat.testBit i) ∧
    ∀ k bit, bits[k]? = some bit → bitAt (bitArray buffer n bits) (n + k) = bit := by
  induction bits with
  | nil =>
    intro buffer n hn hbuffer
    refine ⟨?_, fun i hi => ?_, fun k bit hk => nomatch hk⟩
    · unfold bitArray
      split
      · simp only [List.length_singleton, List.length_nil]
        omega
      · simp only [List.length_nil]
        omega
    · rw [bitArray, if_pos (by omega), bitAt_cons_in _ _ (by omega)]
  | cons bit bits ih =>
    intro buffer n hn hbuffer
    set buffer' := if bit then buffer ||| 1 <<< UInt8.ofNat n else buffer with hb
    have hbits : ∀ i, buffer'.toNat.testBit i = if i = n then bit else buffer.toNat.testBit i :=
      testBit_buffer bit hn hbuffer
    have harray : bitArray buffer n (bit :: bits) =
        if n + 1 = 8 then buffer' :: bitArray 0 0 bits else bitArray buffer' (n + 1) bits := rfl
    rw [harray]
    split
    case isTrue h =>
      obtain ⟨hlen, -, hrest⟩ := ih 0 0 (by omega) (by decide)
      refine ⟨?_, fun i hi => ?_, fun k b hk => ?_⟩
      · rw [List.length_cons, hlen, List.length_cons]
        omega
      · rw [bitAt_cons_in _ _ (by omega), hbits, if_neg (by omega)]
      · rcases k with _ | k
        · rw [Nat.add_zero, bitAt_cons_in _ _ hn, hbits, if_pos rfl]
          exact Option.some_inj.mp hk
        · rw [show n + (k + 1) = 8 + (0 + k) by omega, bitAt_cons_add]
          exact hrest k b hk
    case isFalse h =>
      obtain ⟨hlen, hold, hrest⟩ := ih buffer' (n + 1) (by omega) (buffer_lt bit hn hbuffer)
      refine ⟨?_, fun i hi => ?_, fun k b hk => ?_⟩
      · rw [hlen, List.length_cons]
        omega
      · rw [hold i (by omega), hbits, if_neg (by omega)]
      · rcases k with _ | k
        · rw [show n + 0 = n from rfl, hold n (by omega), hbits, if_pos rfl]
          exact Option.some_inj.mp hk
        · rw [show n + (k + 1) = n + 1 + k by omega]
          exact hrest k b hk

/-! ### The resources -/

/-- A resource, what was written for it, and what stands there in the end. -/
structure Row where
  item : IndexTableItem
  out : StreamedOut
  data : Bytes
  final : Bytes

def Row.links (row : Row) : List LinkItem := linkItems (linksOf row.item.iResource.iRIA) row.out.positions

section
variable (compress : List UInt16 → Bytes) (expander : Bytes → List UInt16) (symbianV6hack : Bool)
  (names : List (String × UInt64))

/-- The resources stand one behind the other at the end of `file`. -/
def Rows : Bytes → List Row → Prop
  | _, [] => True
  | file, row :: rows => file.length ≤ 0xFFFF ∧
    Short (compressedRuns compress symbianV6hack (numbered 0 row.item.iResource.iRIA)) ∧
    Placed expander symbianV6hack names row.item.iResource.iRIA file row.out row.data row.final ∧
    Rows (file ++ row.data) rows

/-- What ends the program where `file` is written and `rest` is not: a resource or the index would begin beyond 0xFFFF,
or a run of the next resource is too long. -/
inductive Stops (file : Bytes) : List IndexTableItem → Stop → Prop
  | offset (rest : List IndexTableItem) (h : 0xFFFF < file.length) : Stops file rest (.offset file.length)
  | runLength (p : IndexTableItem) (rest : List IndexTableItem) (m : ℕ) (h : file.length ≤ 0xFFFF)
    (hlong : ¬ Short (compressedRuns compress symbianV6hack (numbered 0 p.iResource.iRIA))) :
    Stops file (p :: rest) (.runLength m)

end

/-- The entries of the index, from an offset on. -/
def entries : ℕ → List Row → List IndexTableItem
  | _, [] => []
  | offset, row :: rows => ⟨{ row.item.iResource with
      iContainsCompressedUnicode := row.out.containsCompressedUnicode }, offset⟩ ::
    entries (offset + row.data.length) rows

section
variable {expander : Bytes → List UInt16} {compress : List UInt16 → Bytes}
variable {symbianV6hack : Bool} {names : List (String × UInt64)}

/-- The resources are written in order, or one that cannot be written ends the run. -/
theorem writeResources_done (hcompress : ∀ words, expander (compress words) = words) (hempty : expander [] = [])
    (symbianV6hack : Bool) (names : List (String × UInt64)) (ps : List IndexTableItem) :
    ∀ (file : Bytes) (index : List IndexTableItem) (links : List LinkItem) (largest : ℕ),
    (∀ p ∈ ps, Nested 0 (numbered 0 p.iResource.iRIA)) →
    (∃ rows rest stop, ps = rows.map Row.item ++ rest ∧ Rows compress expander symbianV6hack names file rows ∧
      Stops compress symbianV6hack (file ++ rows.flatMap Row.data) rest stop ∧
      ps.foldlM (writeResource compress symbianV6hack) ⟨.atEnd file, index, links, largest⟩ = .error stop) ∨
    ∃ rows, rows.map Row.item = ps ∧ Rows compress expander symbianV6hack names file rows ∧
      ps.foldlM (writeResource compress symbianV6hack) ⟨.atEnd file, index, links, largest⟩ =
        .ok ⟨.atEnd (file ++ rows.flatMap Row.data), index ++ entries file.length rows, links ++ rows.flatMap Row.links,
          rows.foldl (fun largest row => max largest row.out.aSizeWhenUncompressed) largest⟩ := by
  induction ps with
  | nil =>
    intro file index links largest _
    refine .inr ⟨[], rfl, trivial, ?_⟩
    simp only [List.flatMap_nil, entries, List.append_nil]
    rfl
  | cons p ps ih =>
    intro file index links largest hnested
    have hround : ∀ st, (p :: ps).foldlM (writeResource compress symbianV6hack) st =
      writeResource compress symbianV6hack st p >>= ps.foldlM (writeResource compress symbianV6hack) := fun _ => rfl
    have hnone : file ++ ([] : List Row).flatMap Row.data = file := List.append_nil _
    simp only [hround, writeResource, checkOffset]
    have hpos : (RCBinaryStream.atEnd file).GetPosition = file.length := rfl
    rw [hpos]
    by_cases hoffset : file.length ≤ 0xFFFF
    · rw [if_pos hoffset]
      simp only [run_ok_bind]
      rcases streamOut_placed hcompress hempty symbianV6hack names p.iResource (hnested p (List.mem_cons_self ..)) file
        with ⟨hlong, m, herr⟩ | ⟨hshort, out, data, final, hout, hplaced⟩
      · refine .inl ⟨[], p :: ps, .runLength m, rfl, trivial, ?_, ?_⟩
        · rw [hnone]
          exact .runLength p ps m hoffset hlong
        · rw [herr]
          rfl
      · rw [hout]
        simp only [run_ok_bind, hplaced.aStream]
        have hrow : ∀ rows, (⟨p, out, data, final⟩ :: rows : List Row).flatMap Row.data =
            data ++ rows.flatMap Row.data := fun _ => rfl
        rcases ih (file ++ data) (index ++ [⟨{ p.iResource with
              iContainsCompressedUnicode := out.containsCompressedUnicode }, file.length⟩])
            (links ++ linkItems (linksOf p.iResource.iRIA) out.positions) (max largest out.aSizeWhenUncompressed)
            (fun q hq => hnested q (List.mem_cons_of_mem _ hq)) with
          ⟨rows, rest, stop, hitems, hrows, hstops, herr⟩ | ⟨rows, hitems, hrows, hok⟩
        · refine .inl ⟨⟨p, out, data, final⟩ :: rows, rest, stop, by rw [hitems]; rfl,
            ⟨hoffset, hshort, hplaced, hrows⟩, ?_, herr⟩
          rwa [hrow, ← List.append_assoc]
        · refine .inr ⟨⟨p, out, data, final⟩ :: rows, by rw [List.map_cons, hitems],
            ⟨hoffset, hshort, hplaced, hrows⟩, ?_⟩
          rw [hok, hrow, List.foldl_cons, List.flatMap_cons, entries, List.length_append]
          simp only [List.append_assoc, List.cons_append, List.nil_append, Row.links]
    · refine .inl ⟨[], p :: ps, .offset file.length, rfl, trivial, ?_, ?_⟩
      · rw [hnone]
        exact .offset _ (Nat.lt_of_not_le hoffset)
      · rw [if_neg hoffset]
        rfl

/-- The links of all the resources are overwritten, or one of them names no resource. -/
theorem overwriteRows (rows : List Row) : ∀ (file before behind : Bytes) (pos : ℕ),
    Rows compress expander symbianV6hack names file rows → before.length = file.length →
    ((∃ row ∈ rows, ∃ link ∈ linksOf row.item.iResource.iRIA, FindId names link.1 = none) ∧
      (rows.flatMap Row.links).foldlM (OverwriteLink names) ⟨before ++ rows.flatMap Row.data ++ behind, pos⟩ =
        .error (.exits 1)) ∨
    ((∀ row ∈ rows, ∀ link ∈ linksOf row.item.iResource.iRIA, FindId names link.1 ≠ none) ∧
      ∃ pos', (rows.flatMap Row.links).foldlM (OverwriteLink names) ⟨before ++ rows.flatMap Row.data ++ behind, pos⟩ =
        .ok ⟨before ++ rows.flatMap Row.final ++ behind, pos'⟩) := by
  induction rows with
  | nil => exact fun _ _ _ pos _ _ => .inr ⟨fun _ h => absurd h List.not_mem_nil, pos, rfl⟩
  | cons row rows ih =>
    intro file before behind pos ⟨_, _, hplaced, hrows⟩ hlen
    have hlinks : (row :: rows).flatMap Row.links = List.zipWith (fun link site => ⟨link.1, link.2, site.2⟩)
        (linksOf row.item.iResource.iRIA) row.out.positions ++ rows.flatMap Row.links := by
      rw [List.flatMap_cons, Row.links, linkItems_eq _ _ hplaced.keys]
    have hfile : before ++ (row :: rows).flatMap Row.data ++ behind =
        before ++ row.data ++ (rows.flatMap Row.data ++ behind) := by
      rw [List.flatMap_cons]
      simp only [List.append_assoc]
    rw [hlinks, List.foldlM_append, hfile]
    rcases overwriteLinks_zip names (siteBytes names (linksOf row.item.iResource.iRIA))
        (linksOf row.item.iResource.iRIA) row.out.positions 0 (before ++ row.data ++ (rows.flatMap Row.data ++ behind)) pos
        (by rw [hplaced.keys, List.range_eq_range'])
        (fun i name type hi => by
          rw [Nat.zero_add, siteBytes, hi]
          rfl) with ⟨⟨link, hlink, hnone⟩, herr⟩ | ⟨hknown, pos', hok⟩
    · refine .inl ⟨⟨row, List.mem_cons_self .., link, hlink, hnone⟩, ?_⟩
      rw [herr]
      rfl
    · rw [hok, run_ok_bind, hplaced.overwritten before _ hlen]
      have hnext : before ++ row.final ++ (rows.flatMap Row.data ++ behind) =
          before ++ row.final ++ rows.flatMap Row.data ++ behind := by simp only [List.append_assoc]
      rw [hnext]
      rcases ih (file ++ row.data) (before ++ row.final) behind pos' hrows
          (by rw [List.length_append, List.length_append, hlen, hplaced.length]) with
        ⟨⟨row', hrow', link, hlink, hnone⟩, herr⟩ | ⟨hknown', pos'', hok'⟩
      · exact .inl ⟨⟨row', List.mem_cons_of_mem _ hrow', link, hlink, hnone⟩, herr⟩
      · refine .inr ⟨fun row' hrow' => ?_, pos'', ?_⟩
        · rcases List.mem_cons.mp hrow' with rfl | hrow'
          · exact hknown
          · exact hknown' row' hrow'
        · rw [hok', List.flatMap_cons]
          simp only [List.append_assoc]

end

/-! ### Offsets -/

/-- The offset behind the first `k` data that follow `front`. -/
def offsetOf (front : Bytes) (datas : List Bytes) (k : ℕ) : ℕ := front.length + (datas.take k).flatten.length

/-- The index: the offset of each data, and the offset behind the last one. -/
def offsets (front : Bytes) (datas : List Bytes) : Bytes :=
  if datas = [] then [] else (List.range (datas.length + 1)).flatMap fun k => L_WORD (offsetOf front datas k)

theorem entries_iOffset (rows : List Row) : ∀ front : Bytes,
    ((entries front.length rows).flatMap fun p => L_WORD p.iOffset) ++
      L_WORD (front.length + (rows.flatMap Row.data).length) =
    (List.range (rows.length + 1)).flatMap fun k => L_WORD (offsetOf front (rows.map Row.data) k) := by
  induction rows with
  | nil => exact fun front => (List.append_nil _).symm
  | cons row rows ih =>
    intro front
    have hnext := ih (front ++ row.data)
    have hbehind : ∀ k, offsetOf (front ++ row.data) (rows.map Row.data) k =
        offsetOf front ((row :: rows).map Row.data) (k + 1) := by
      intro k
      rw [offsetOf, offsetOf, List.map_cons, List.take_succ_cons, List.flatten_cons, List.length_append,
        List.length_append, Nat.add_assoc]
    simp only [hbehind] at hnext
    have hcons : (List.range ((row :: rows).length + 1)).flatMap (fun k =>
        L_WORD (offsetOf front ((row :: rows).map Row.data) k)) = L_WORD (front.length + 0) ++
        (List.range (rows.length + 1)).flatMap fun k => L_WORD (offsetOf front ((row :: rows).map Row.data) (k + 1)) := by
      rw [List.length_cons, List.range_succ_eq_map, List.flatMap_cons, List.flatMap_map]
      rfl
    rw [hcons, ← hnext, entries, List.flatMap_cons, List.flatMap_cons]
    simp only [List.length_append, List.append_assoc, Nat.add_assoc, Nat.add_zero]

theorem offsetOf_le (front : Bytes) (datas : List Bytes) (k : ℕ) :
    offsetOf front datas k ≤ offsetOf front datas datas.length := by
  rw [offsetOf, offsetOf, List.take_length]
  refine Nat.add_le_add_left ?_ _
  conv_rhs => rw [← List.take_append_drop k datas, List.flatten_append, List.length_append]
  exact Nat.le_add_right _ _

theorem offsetOf_congr {front front' : Bytes} {datas datas' : List Bytes} (hfront : front.length = front'.length)
    (hdatas : datas.map List.length = datas'.map List.length) (k : ℕ) :
    offsetOf front datas k = offsetOf front' datas' k := by
  rw [offsetOf, offsetOf, hfront, List.length_flatten, List.length_flatten, List.map_take, List.map_take, hdatas]

/-! ### Ids -/

/-- What the parser keeps: the table of names has the labels of the index, no two the same. -/
structure Parsed (statements : List Statement) (g : GlobalData) : Prop where
  names : g.ResourceNameIds = (g.Index.filter fun p => p.iResource.iLabel ≠ "").map fun p =>
    (p.iResource.iLabel, p.iResource.iResourceId)
  nodup : (g.ResourceNameIds.map Prod.fst).Nodup
  items : g.Index.map (fun p => p.iResource.iRIA) = statements.map Statement.items

theorem isStored_iff (names : List (String × UInt64)) (name : String) :
    IsStored names name = true ↔ name ∈ names.map Prod.fst := by
  simp [IsStored]

/-- One more statement keeps what is known of those parsed. -/
theorem Parsed.step {setting : Setting} {done : List Statement} {g g' : GlobalData} {statement : Statement}
    (h : Parsed done g) (hok : resource_statement setting g statement = .ok g') : Parsed (done ++ [statement]) g' := by
  unfold resource_statement at hok
  split at hok
  · exact nomatch hok
  case isFalse hstored =>
    cases hok
    by_cases hlabel : statement.label = ""
    · refine ⟨?_, ?_, ?_⟩
      · simp only [if_pos hlabel, List.append_nil, h.names, List.filter_append]
        simp [hlabel]
      · simp only [if_pos hlabel, List.append_nil]
        exact h.nodup
      · rw [List.map_append, h.items, List.map_append]
        rfl
    · have hnew : statement.label ∉ g.ResourceNameIds.map Prod.fst := by
        rw [← isStored_iff]
        exact fun hin => hstored ⟨hlabel, hin⟩
      refine ⟨?_, ?_, ?_⟩
      · simp only [if_neg hlabel, h.names, List.filter_append]
        simp [hlabel]
      · simp only [if_neg hlabel, List.map_append, List.map_cons, List.map_nil]
        exact List.nodup_append.mpr ⟨h.nodup, List.nodup_singleton _, fun a ha b hb => by
          rw [List.mem_singleton.mp hb]
          exact fun heq => hnew (heq ▸ ha)⟩
      · rw [List.map_append, h.items, List.map_append]
        rfl

theorem Parsed.run {setting : Setting} {done : List Statement} {g g' : GlobalData} (h : Parsed done g)
    (statements : List Statement) (hok : statements.foldlM (resource_statement setting) g = .ok g') :
    Parsed (done ++ statements) g' := by
  induction statements generalizing done g with
  | nil =>
    cases hok
    rwa [List.append_nil]
  | cons statement statements ih =>
    rw [List.foldlM_cons] at hok
    rcases hstep : resource_statement setting g statement with stop | next
    · rw [hstep] at hok
      exact nomatch hok
    · rw [hstep, run_ok_bind] at hok
      have hrest := ih (h.step hstep) hok
      rwa [List.append_assoc, List.singleton_append] at hrest

variable {statements : List Statement}

theorem parse_parsed {setting : Setting} {g : GlobalData}
    (h : parse setting statements = .ok g) : Parsed statements g := by
  have hempty : Parsed [] ⟨setting.CurrentId, [], []⟩ := ⟨rfl, List.nodup_nil, rfl⟩
  exact hempty.run statements h

theorem Parsed.findId {g : GlobalData} (h : Parsed statements g) {p : IndexTableItem}
    (hp : p ∈ g.Index) (hlabel : p.iResource.iLabel ≠ "") :
    FindId g.ResourceNameIds p.iResource.iLabel = some p.iResource.iResourceId := by
  have hmem : (p.iResource.iLabel, p.iResource.iResourceId) ∈ g.ResourceNameIds := by
    rw [h.names]
    exact List.mem_map_of_mem (List.mem_filter.mpr ⟨hp, by simpa using hlabel⟩)
  rcases hfind : FindId g.ResourceNameIds p.iResource.iLabel with _ | id
  · rw [FindId, Option.map_eq_none_iff, List.find?_eq_none] at hfind
    exact absurd (hfind _ hmem) (by simp)
  · rw [FindId, Option.map_eq_some_iff] at hfind
    obtain ⟨entry, hentry, rfl⟩ := hfind
    have hkey : entry.1 = p.iResource.iLabel := by simpa using List.find?_some hentry
    have heq := List.inj_on_of_nodup_map h.nodup (List.mem_of_find?_eq_some hentry) hmem hkey
    rw [heq]

theorem Parsed.of_findId {g : GlobalData} (h : Parsed statements g) {name : String}
    (hfind : FindId g.ResourceNameIds name ≠ none) : ∃ p ∈ g.Index, p.iResource.iLabel = name ∧ name ≠ "" := by
  obtain ⟨id, hid⟩ := Option.ne_none_iff_exists'.mp hfind
  rw [FindId, Option.map_eq_some_iff] at hid
  obtain ⟨entry, hentry, -⟩ := hid
  have hkey : entry.1 = name := by simpa using List.find?_some hentry
  have hmem := List.mem_of_find?_eq_some hentry
  rw [h.names, List.mem_map] at hmem
  obtain ⟨p, hp, rfl⟩ := hmem
  obtain ⟨hp, hlabel⟩ := List.mem_filter.mp hp
  exact ⟨p, hp, hkey, hkey ▸ by simpa using hlabel⟩

theorem headerLine_mem {index : List IndexTableItem} {p : IndexTableItem} (hp : p ∈ index)
    (hlabel : p.iResource.iLabel ≠ "") (hlocal : p.iResource.iLocal = false) :
    headerLine p.iResource.iLabel p.iResource.iFormatAsHex p.iResource.iResourceId ∈ WriteHeaderFile index := by
  refine List.mem_map.mpr ⟨p, List.mem_filter.mpr ⟨hp, ?_⟩, rfl⟩
  have hpos : 0 < p.iResource.iLabel.length := Nat.pos_of_ne_zero fun h0 => hlabel (String.length_eq_zero_iff.mp h0)
  simp [hpos, hlocal]

/-! ### The resource file -/

/-- `sizeOfLargestResourceWhenUncompressed`. -/
def largest (g : GlobalData) : ℕ :=
  g.Index.foldl (fun size p => max size (uncompressed g.ResourceNameIds p.iResource.iRIA).length) 0

/-- A resource file: `front` is all that stands before the resources, `bits` has a bit for each. -/
structure ResourceFile (expander : Bytes → List UInt16) (symbianV6hack aThirdUidIsOffset : Bool) (g : GlobalData)
    (before front bits : Bytes) (datas : List Bytes) (file : Bytes) : Prop where
  file_eq : file = front ++ datas.flatten ++ offsets front datas
  front_eq : front = before ++ flagBytes symbianV6hack aThirdUidIsOffset ++
    if symbianV6hack then L_WORD (offsetOf front datas datas.length) ++ L_WORD (1 + (offsets front datas).length)
    else L_WORD (largest g) ++ bits
  count : datas.length = g.Index.length
  length_bits : bits.length = (datas.length + 7) / 8
  offset_le : ∀ k ≤ datas.length, offsetOf front datas k ≤ 0xFFFF
  data : ∀ k p data, g.Index[k]? = some p → datas[k]? = some data →
    if bitAt bits k then expand expander data = some (uncompressed g.ResourceNameIds p.iResource.iRIA)
    else data = uncompressed g.ResourceNameIds p.iResource.iRIA
  links : ∀ p ∈ g.Index, ∀ link ∈ linksOf p.iResource.iRIA, ∃ r ∈ g.Index, r.iResource.iLabel = link.1 ∧
    FindId g.ResourceNameIds link.1 = some r.iResource.iResourceId ∧
    (∀ r' ∈ g.Index, r'.iResource.iLabel = link.1 → r'.iResource.iResourceId = r.iResource.iResourceId) ∧
    (r.iResource.iLocal = false →
      headerLine link.1 r.iResource.iFormatAsHex r.iResource.iResourceId ∈ WriteHeaderFile g.Index)

theorem Parsed.links {g : GlobalData} (h : Parsed statements g) {name : String}
    (hfind : FindId g.ResourceNameIds name ≠ none) : ∃ r ∈ g.Index, r.iResource.iLabel = name ∧
      FindId g.ResourceNameIds name = some r.iResource.iResourceId ∧
      (∀ r' ∈ g.Index, r'.iResource.iLabel = name → r'.iResource.iResourceId = r.iResource.iResourceId) ∧
      (r.iResource.iLocal = false →
        headerLine name r.iResource.iFormatAsHex r.iResource.iResourceId ∈ WriteHeaderFile g.Index) := by
  obtain ⟨r, hr, rfl, hlabel⟩ := h.of_findId hfind
  have hid := h.findId hr hlabel
  refine ⟨r, hr, rfl, hid, fun r' hr' heq => ?_, headerLine_mem hr hlabel⟩
  have hid' := h.findId hr' (heq ▸ hlabel)
  rw [heq, hid] at hid'
  exact (Option.some_inj.mp hid').symm

section
variable {compress : List UInt16 → Bytes} {expander : Bytes → List UInt16} {symbianV6hack : Bool}
  {names : List (String × UInt64)}

theorem entries_compressed (rows : List Row) : ∀ offset,
    (entries offset rows).map (fun p => p.iResource.iContainsCompressedUnicode) =
      rows.map fun row => row.out.containsCompressedUnicode := by
  induction rows with
  | nil => exact fun _ => rfl
  | cons row rows ih => exact fun offset => congrArg (_ :: ·) (ih _)

theorem Rows.placed {row : Row} {rows : List Row} : ∀ {file : Bytes}, Rows compress expander symbianV6hack names file rows →
    row ∈ rows → ∃ file', Placed expander symbianV6hack names row.item.iResource.iRIA file' row.out row.data row.final := by
  induction rows with
  | nil => exact fun _ h => absurd h List.not_mem_nil
  | cons first rows ih =>
    intro file ⟨_, _, hplaced, hrows⟩ h
    rcases List.mem_cons.mp h with rfl | h
    · exact ⟨file, hplaced⟩
    · exact ih hrows h

theorem Rows.short {rows : List Row} : ∀ {file : Bytes}, Rows compress expander symbianV6hack names file rows →
    ∀ p ∈ rows.map Row.item, Short (compressedRuns compress symbianV6hack (numbered 0 p.iResource.iRIA)) := by
  induction rows with
  | nil => exact fun _ _ h => absurd h List.not_mem_nil
  | cons row rows ih =>
    intro file ⟨_, hshort, _, hrows⟩
    exact List.forall_mem_cons.mpr ⟨hshort, ih hrows⟩

theorem Rows.lengths {rows : List Row} {file : Bytes} (h : Rows compress expander symbianV6hack names file rows) :
    (rows.map Row.final).map List.length = (rows.map Row.data).map List.length := by
  rw [List.map_map, List.map_map]
  refine List.map_congr_left fun row hrow => ?_
  obtain ⟨_, hplaced⟩ := h.placed hrow
  exact hplaced.length

theorem Rows.length_final {rows : List Row} {file : Bytes} (h : Rows compress expander symbianV6hack names file rows) :
    (rows.map Row.final).flatten.length = (rows.flatMap Row.data).length := by
  rw [List.length_flatten, h.lengths, ← List.length_flatten, List.flatMap_def]

theorem Rows.largest {rows : List Row} {file : Bytes} (h : Rows compress expander symbianV6hack names file rows) (size : ℕ) :
    rows.foldl (fun largest row => max largest row.out.aSizeWhenUncompressed) size =
      (rows.map Row.item).foldl (fun size p => max size (uncompressed names p.iResource.iRIA).length) size := by
  rw [List.foldl_map]
  refine List.foldl_ext _ _ _ fun size row hrow => ?_
  obtain ⟨_, hplaced⟩ := h.placed hrow
  rw [hplaced.aSizeWhenUncompressed]

theorem Rows.data {rows : List Row} {file : Bytes} (h : Rows compress expander symbianV6hack names file rows) {k : ℕ}
    {p : IndexTableItem} {data : Bytes} (hp : (rows.map Row.item)[k]? = some p)
    (hdata : (rows.map Row.final)[k]? = some data) :
    if bitAt (bitArray 0 0 (rows.map fun row => row.out.containsCompressedUnicode)) k then
      expand expander data = some (uncompressed names p.iResource.iRIA)
    else data = uncompressed names p.iResource.iRIA := by
  rw [List.getElem?_map, Option.map_eq_some_iff] at hp hdata
  obtain ⟨row, hrow, rfl⟩ := hp
  obtain ⟨row', hrow', rfl⟩ := hdata
  obtain rfl : row = row' := Option.some_inj.mp (hrow.symm.trans hrow')
  obtain ⟨_, hplaced⟩ := h.placed (List.mem_of_getElem? hrow)
  obtain ⟨-, -, hbit⟩ := bitAt_bitArray (rows.map fun row => row.out.containsCompressedUnicode) 0 0 (by omega) (by decide)
  have hk := hbit k row.out.containsCompressedUnicode (by rw [List.getElem?_map, hrow]; rfl)
  rw [Nat.zero_add] at hk
  rw [hk]
  split
  · exact hplaced.compressed ‹_›
  · exact hplaced.plain (Bool.eq_false_iff.mpr ‹_›)

end

theorem write_makeSpace (symbianV6hack : Bool) (before : Bytes) (index : List IndexTableItem) :
    ∃ space, makeSpace symbianV6hack (.atEnd before) index = .atEnd (before ++ space) ∧
      space.length = if symbianV6hack then 4 else 2 + (index.length + 7) / 8 := by
  unfold makeSpace
  split
  · exact ⟨[0, 0, 0, 0], write_atEnd _ _, rfl⟩
  · refine ⟨L_WORD 0 ++ bitArrayOf index, ?_, ?_⟩
    · rw [write_atEnd, write_atEnd, List.append_assoc]
    · have hlen := (bitAt_bitArray (index.map fun p => p.iResource.iContainsCompressedUnicode) 0 0 (by omega)
        (by decide)).1
      rw [List.length_append, bitArrayOf, hlen, List.length_map, Nat.zero_add]
      rfl

theorem write_over {space header : Bytes} (before behind : Bytes) (h : header.length = space.length) (pos : ℕ) :
    (RCBinaryStream.SetPosition ⟨before ++ space ++ behind, pos⟩ before.length).Write header =
      ⟨before ++ header ++ behind, before.length + header.length⟩ := by
  unfold RCBinaryStream.SetPosition RCBinaryStream.Write
  by_cases hempty : header = []
  · rw [hempty, List.length_nil] at h
    rw [hempty, List.length_eq_zero_iff.mp h.symm, if_pos rfl]
  · simp only [if_neg hempty, writeAt_middle behind h]

theorem length_L_WORD (n : ℕ) : (L_WORD n).length = 2 := NumericValue.length_iData _

theorem length_entries (rows : List Row) : ∀ offset, (entries offset rows).length = rows.length := by
  induction rows with
  | nil => exact fun _ => rfl
  | cons row rows ih => exact fun offset => congrArg (· + 1) (ih _)

theorem length_headerBytes (symbianV6hack : Bool) (st : Progress) (offs endPos : ℕ) :
    (headerBytes symbianV6hack st offs endPos).length =
      if symbianV6hack then 4 else 2 + (st.aIndex.length + 7) / 8 := by
  unfold headerBytes
  split
  · rw [List.length_append, length_L_WORD, length_L_WORD]
  · rw [List.length_append, length_L_WORD, bitArrayOf, (bitAt_bitArray _ 0 0 (by omega) (by decide)).1, List.length_map,
      Nat.zero_add]

theorem offsetOf_last (front : Bytes) (datas : List Bytes) :
    offsetOf front datas datas.length = front.length + datas.flatten.length := by
  rw [offsetOf, List.take_length]

theorem indexBytes_entries {front front' : Bytes} {rows : List Row} (hfront : front'.length = front.length)
    (hlengths : (rows.map Row.final).map List.length = (rows.map Row.data).map List.length) :
    indexBytes (entries front.length rows) (front.length + (rows.flatMap Row.data).length) =
      offsets front' (rows.map Row.final) := by
  rcases rows with _ | ⟨row, rows⟩
  · rfl
  · have hne : entries front.length (row :: rows) ≠ [] := List.cons_ne_nil _ _
    have hne' : (row :: rows).map Row.final ≠ [] := List.cons_ne_nil _ _
    rw [indexBytes, if_neg hne, offsets, if_neg hne', entries_iOffset, List.length_map]
    simp only [offsetOf_congr hfront hlengths]

/-- The bytes in front of the resources, behind what the file had. -/
def frontLength (symbianV6hack : Bool) (g : GlobalData) : ℕ := if symbianV6hack then 4 else 1 + (2 + (g.Index.length + 7) / 8)

def sampleSetting : Setting := ⟨0, 1, true⟩

/-- A resource with a string and a link forward, and one with a link back. -/
def first : List Item :=
  [.StreamIn [1], .StreamOutCompressingIfReducesSize (List.replicate 9 0x61), .WordLink "second"]

def second : List Item := [.LongLink "first", .StreamIn [2]]

def sampleStatements : List Statement := [⟨"first", false, first⟩, ⟨"second", false, second⟩]

def sampleGlobals : GlobalData where
  CurrentId := 2
  ResourceNameIds := [("first", 1), ("second", 2)]
  Index := [⟨⟨"first", false, first, 1, true, false⟩, 0⟩, ⟨⟨"second", false, second, 2, true, false⟩, 0⟩]

end GnuPoc.Rcomp
