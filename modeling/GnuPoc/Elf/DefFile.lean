import GnuPoc.Elf.ExportList
import GnuPoc.Lib.Stdio

/-!
# GnuPoc.Elf.DefFile — frozen exports as text (`writeDef`, `parseDefFile`, `parseSysDef`)

`writeDef` prints one line for each export; `parseDefFile` reads such a file through a line buffer of 500
bytes.  An export without an address is written behind `; MISSING:`, which makes its line a comment.
The warnings of the reader are left out.
-/

namespace GnuPoc.Elf

open GnuPoc.Lib

def EPOC_VERSION_9_1 : ℕ := 0x901

/-! ### `writeDef` -/

/-- `"%s"`, which the C library prints `(null)` for. -/
def printName (name : Option CString) : Bytes :=
  match name with
  | some n => n.chars
  | none => chars "(null)"

/-- The line of export number `i`, without its line end. -/
def defLine (epocVersion i : ℕ) (e : Export) : Bytes :=
  let ordinal := printInt (UInt32.ofNat (i + 1)).toInt32
  let missing := if e.address = 0 then chars "; MISSING:" else []
  missing ++ chars "\t" ++ printName e.name ++ chars " @ " ++ ordinal ++ chars " NONAME" ++
    if epocVersion ≤ EPOC_VERSION_9_1 then
      chars " ; " ++ (if e.code then chars "CODE" else chars "DATA")
    else if e.code then []
    else chars " DATA " ++ printInt (Int32.ofInt e.size)

def newLine : Bytes := chars "; NEW:"

/-- The lines for the exports from number `i` on. -/
def defLines (epocVersion presetOrdinals : ℕ) : ℕ → List Export → List Bytes
  | _, [] => []
  | i, e :: es =>
    (if i = presetOrdinals then [newLine] else []) ++ defLine epocVersion i e ::
      defLines epocVersion presetOrdinals (i + 1) es

def ExportList.writeDef (epocVersion : ℕ) (l : ExportList) : Bytes :=
  (chars "EXPORTS" :: defLines epocVersion l.presetOrdinals 0 l.exports ++ [[]]).flatMap (· ++ chars "\r\n")

/-! ### `parseDefFile` -/

/-- One of the two tests that take a line end off; what stands in front of the buffer is not read. -/
def stripEol (ptr : Bytes) : Bytes :=
  if ptr.getLast? = some 13 ∨ ptr.getLast? = some 10 then ptr.dropLast else ptr

/-- `sscanf(ptr, "\t%s @ %d", name, &ordinal) == 2`. -/
def scanDefLine (ptr : Bytes) : Option (Bytes × Int32) :=
  let s := skipSpaces (skipSpaces ptr)
  let name := s.takeWhile fun c => !isspace c
  if name = [] then none
  else
    match skipSpaces (s.dropWhile fun c => !isspace c) with
    | 64 :: s => (scanInt (skipSpaces s)).map fun r => (name, r.1)
    | _ => none

/-- `sscanf(ptr3, "DATA %d", &size)`; `size` stays zero where nothing matches. -/
def scanSize (ptr3 : Bytes) : Int32 :=
  match scanInt (skipSpaces (ptr3.drop 4)) with
  | some (size, _) => size
  | none => 0

/-- The export of a line below the header. -/
def parseDefLine (ptr : Bytes) : Option FrozenExport :=
  let code := strstr (chars "; DATA") ptr = none
  let ptr := ptr.takeWhile (· ≠ 59)
  match scanDefLine ptr with
  | none => none
  | some (name, ordinal) =>
    let ptr2 := (ptr.drop name.length).dropWhile (· ≠ 64)
    match strstr (chars "DATA") ptr2 with
    | some ptr3 => some ⟨CString.ofBytes name, ordinal.toUInt32.toNat, false, (scanSize ptr3).toInt⟩
    | none => some ⟨CString.ofBytes name, ordinal.toUInt32.toNat, code, 0⟩

/-- The loop over the chunks `fgets` delivers; `header` tells whether `EXPORTS` was seen. -/
def parseDefChunks : Bool → List Bytes → ExportList → ExportList
  | _, [], l => l
  | header, chunk :: chunks, l =>
    let ptr := stripEol (stripEol (readCString chunk))
    if ptr.head? = some 59 then parseDefChunks header chunks l
    else if ptr = [] then parseDefChunks header chunks l
    else if header then
      match parseDefLine ptr with
      | some c => parseDefChunks true chunks (l.addExportOrdinal c)
      | none => parseDefChunks true chunks l
    else if ptr = chars "EXPORTS" then parseDefChunks true chunks l
    else l

def parseDefFile (file : Bytes) (l : ExportList) : ExportList :=
  parseDefChunks false (fgetsChunks 500 file) l

/-! ### `parseSysDef` -/

/-- The tokens of `strtok(str, ";")`. -/
def strtok (c : UInt8) (s : Bytes) : List Bytes := (s.splitOn c).filter (· ≠ [])

/-- `atoi`. -/
def atoi (s : Bytes) : Int32 :=
  match scanInt s with
  | some (n, _) => n
  | none => 0

def parseSysDef (str : Bytes) (l : ExportList) : ExportList :=
  (strtok 59 str).foldl (fun l token =>
    match strchr 44 token with
    | none => l
    | some delim =>
      l.addExportOrdinal ⟨CString.ofBytes (token.takeWhile (· ≠ 44)), (atoi delim.tail).toUInt32.toNat, true, 0⟩) l

/-! ### Lines read back -/

/-- A name the format can hold: not empty, without white space and `;`. -/
structure DefName (n : CString) : Prop where
  nonempty : n.chars ≠ []
  plain : ∀ c ∈ n.chars, isspace c = false ∧ c ≠ 59

theorem DefName.of_all {n : CString} (hne : n.chars ≠ [])
    (h : (n.chars.all fun c => !isspace c && c != 59) = true) : DefName n where
  nonempty := hne
  plain c hc := by simpa using List.all_eq_true.mp h c hc

/-- An export that is written with its name and its address known; `size` is an `int`. -/
structure DefExport (e : Export) (n : CString) : Prop where
  name : e.name = some n
  defName : DefName n
  found : e.address ≠ 0
  int_size : -2 ^ 31 ≤ e.size ∧ e.size < 2 ^ 31

/-- The rest of a line behind the `@`. -/
def defTail (i : ℕ) (e : Export) : Bytes :=
  printInt (UInt32.ofNat (i + 1)).toInt32 ++ chars " NONAME" ++
    if e.code then [] else chars " DATA " ++ printInt (Int32.ofInt e.size)

variable {e : Export}

theorem defLine_eq {epocVersion i : ℕ} {n : CString} (hv : EPOC_VERSION_9_1 < epocVersion)
    (h : DefExport e n) : defLine epocVersion i e = 9 :: n.chars ++ 32 :: 64 :: 32 :: defTail i e := by
  have hpr : printName e.name = n.chars := by rw [h.name]; rfl
  rw [defLine, if_neg h.found, if_neg (Nat.not_le.mpr hv), hpr, defTail]
  show [] ++ [9] ++ n.chars ++ [32, 64, 32] ++ _ ++ _ ++ _ = _
  simp only [List.nil_append, List.append_assoc, List.cons_append]

theorem mem_defTail {i : ℕ} {c : UInt8} (h : c ∈ defTail i e) :
    c = 45 ∨ isdigit c = true ∨ c ∈ chars " NONAME" ∨ (e.code = false ∧ c ∈ chars " DATA ") := by
  rcases List.mem_append.mp h with h | h
  · rcases List.mem_append.mp h with h | h
    · exact (mem_printInt h).imp_right .inl
    · exact .inr (.inr (.inl h))
  · cases hc : e.code with
    | true =>
      rw [hc] at h
      exact absurd h List.not_mem_nil
    | false =>
      rw [hc] at h
      rcases List.mem_append.mp h with h | h
      · exact .inr (.inr (.inr ⟨rfl, h⟩))
      · exact (mem_printInt h).imp_right .inl

/-- None of the characters that the reader gives a meaning of their own is in the rest of a line. -/
theorem not_mem_defTail {i : ℕ} {c : UInt8} (h1 : c ≠ 45) (h2 : isdigit c = false)
    (h3 : c ∉ chars " NONAME") (h4 : c ∉ chars " DATA ") : c ∉ defTail i e := by
  intro h
  rcases mem_defTail h with h | h | h | ⟨-, h⟩
  · exact h1 h
  · rw [h] at h2
    cases h2
  · exact h3 h
  · exact h4 h

theorem scanDefLine_line {i : ℕ} {n : CString} (h : DefName n) :
    scanDefLine (9 :: n.chars ++ 32 :: 64 :: 32 :: defTail i e) =
      some (n.chars, (UInt32.ofNat (i + 1)).toInt32) := by
  obtain ⟨c, cs, hcs⟩ := List.exists_cons_of_ne_nil h.nonempty
  have hc : isspace c = false := (h.plain c (by rw [hcs]; exact List.mem_cons_self)).1
  have hskip : skipSpaces (skipSpaces (9 :: n.chars ++ 32 :: 64 :: 32 :: defTail i e)) =
      n.chars ++ 32 :: 64 :: 32 :: defTail i e := by
    have h9 : skipSpaces (9 :: n.chars ++ 32 :: 64 :: 32 :: defTail i e) =
        skipSpaces (n.chars ++ 32 :: 64 :: 32 :: defTail i e) := rfl
    rw [h9, hcs, List.cons_append, skipSpaces_cons hc, skipSpaces_cons hc]
  have hall : ∀ c ∈ n.chars, (!isspace c) = true := fun c hc => by rw [(h.plain c hc).1]; rfl
  have htake : (n.chars ++ 32 :: 64 :: 32 :: defTail i e).takeWhile (fun c => !isspace c) = n.chars := by
    rw [List.takeWhile_append_of_pos hall]
    show n.chars ++ [] = n.chars
    exact List.append_nil _
  have hdrop : (n.chars ++ 32 :: 64 :: 32 :: defTail i e).dropWhile (fun c => !isspace c) =
      32 :: 64 :: 32 :: defTail i e := by
    rw [List.dropWhile_append_of_pos hall]
    rfl
  have hat : skipSpaces (32 :: 64 :: 32 :: defTail i e) = 64 :: 32 :: defTail i e := rfl
  have hscan : scanInt (32 :: defTail i e) = some ((UInt32.ofNat (i + 1)).toInt32,
      chars " NONAME" ++ if e.code then [] else chars " DATA " ++ printInt (Int32.ofInt e.size)) := by
    rw [scanInt_space, defTail, List.append_assoc]
    refine scanInt_printInt _ fun c hc => ?_
    have h32 : c = 32 := (Option.some.inj hc).symm
    rw [h32]
    rfl
  unfold scanDefLine
  simp only [hskip, htake, hdrop, hat, h.nonempty, if_false, scanInt_skipSpaces, hscan, Option.map_some]

/-- What the reader makes of the line of an export. -/
def restored (i : ℕ) (e : Export) (n : CString) : FrozenExport where
  name := n
  ordinal := i + 1
  code := e.code
  size := if e.code then 0 else e.size

/-- Behind the name stands the `@` that is looked for, or the name ends in one. -/
theorem ptr2_cases (n : CString) (s : Bytes) :
    ∃ front : Bytes, (front = [] ∨ front = [64, 32]) ∧
      ((9 :: n.chars ++ 32 :: 64 :: s).drop n.chars.length).dropWhile (· ≠ 64) = front ++ 64 :: s := by
  have hlen : n.chars.length ≤ (9 :: n.chars).length := by simp
  rw [List.drop_append_of_le_length hlen]
  have hlast : ∃ c, (9 :: n.chars).drop n.chars.length = [c] := by
    refine List.length_eq_one_iff.mp ?_
    rw [List.length_drop, List.length_cons]
    omega
  obtain ⟨c, hc⟩ := hlast
  rw [hc]
  by_cases h64 : c = 64
  · exact ⟨[64, 32], .inr rfl, by rw [h64]; rfl⟩
  · refine ⟨[], .inl rfl, ?_⟩
    simp [h64]

/-- A line that was written is read back as its export. -/
theorem parseDefLine_line {i : ℕ} {n : CString} (h : DefExport e n) (hi : i + 1 < 2 ^ 32) :
    parseDefLine (9 :: n.chars ++ 32 :: 64 :: 32 :: defTail i e) = some (restored i e n) := by
  have hsemi : (59 : UInt8) ∉ 9 :: n.chars ++ 32 :: 64 :: 32 :: defTail i e := by
    have htail : (59 : UInt8) ∉ defTail i e := not_mem_defTail (by decide) (by decide) (by decide) (by decide)
    have hn : (59 : UInt8) ∉ n.chars := fun h0 => (h.defName.plain _ h0).2 rfl
    simp [hn, htail]
  have hcode : strstr (chars "; DATA") (9 :: n.chars ++ 32 :: 64 :: 32 :: defTail i e) = none := strstr_none hsemi
  have htake : (9 :: n.chars ++ 32 :: 64 :: 32 :: defTail i e).takeWhile (· ≠ 59) =
      9 :: n.chars ++ 32 :: 64 :: 32 :: defTail i e := by
    refine List.takeWhile_eq_self_iff.mpr fun c hc => decide_eq_true ?_
    rintro rfl
    exact hsemi hc
  have hname : CString.ofBytes n.chars = n := CString.ofBytes_chars n
  have hord : (UInt32.ofNat (i + 1)).toInt32.toUInt32.toNat = i + 1 := by
    rw [UInt32.toUInt32_toInt32, UInt32.toNat_ofNat', Nat.mod_eq_of_lt hi]
  have hdigitD : ∀ m : Int32, (68 : UInt8) ∉ printInt m := by
    intro m hm
    rcases mem_printInt hm with h0 | h0
    · exact absurd h0 (by decide)
    · exact absurd h0 (by decide)
  obtain ⟨front, hfront, hptr2⟩ := ptr2_cases n (32 :: defTail i e)
  have hD : (68 : UInt8) ∉ front := by
    rcases hfront with rfl | rfl <;> decide
  unfold parseDefLine
  simp only [hcode, htake, scanDefLine_line h.defName, hptr2]
  cases hc : e.code with
  | true =>
    have hnone : strstr (chars "DATA") (front ++ 64 :: 32 :: defTail i e) = none := by
      refine strstr_none fun h0 => ?_
      rw [defTail, hc] at h0
      simp only [List.mem_append, List.mem_cons, if_true, List.not_mem_nil, or_false] at h0
      rcases h0 with h0 | h0 | h0 | h0 | h0
      · exact hD h0
      · exact absurd h0 (by decide)
      · exact absurd h0 (by decide)
      · exact hdigitD _ h0
      · exact absurd h0 (by decide)
    rw [hnone]
    simp only [hname, hord, restored, hc, if_true, decide_true]
  | false =>
    have hsome : strstr (chars "DATA") (front ++ 64 :: 32 :: defTail i e) =
        some (chars "DATA" ++ 32 :: printInt (Int32.ofInt e.size)) := by
      have hsplit : front ++ 64 :: 32 :: defTail i e =
          (front ++ 64 :: 32 :: (printInt (UInt32.ofNat (i + 1)).toInt32 ++ chars " NONAME ")) ++
            (chars "DATA" ++ 32 :: printInt (Int32.ofInt e.size)) := by
        rw [defTail, hc]
        simp only [List.append_assoc, List.cons_append]
        rfl
      rw [hsplit]
      refine strstr_append _ fun h0 => ?_
      simp only [List.mem_append, List.mem_cons] at h0
      rcases h0 with h0 | h0 | h0 | h0 | h0
      · exact hD h0
      · exact absurd h0 (by decide)
      · exact absurd h0 (by decide)
      · exact hdigitD _ h0
      · exact absurd h0 (by decide)
    have hscan : scanInt (32 :: printInt (Int32.ofInt e.size)) = some (Int32.ofInt e.size, []) := by
      have h0 : scanInt (printInt (Int32.ofInt e.size) ++ []) = some (Int32.ofInt e.size, []) :=
        scanInt_printInt _ (by simp)
      rwa [List.append_nil] at h0
    have hsize : scanSize (chars "DATA" ++ 32 :: printInt (Int32.ofInt e.size)) = Int32.ofInt e.size := by
      unfold scanSize
      have hdrop : (chars "DATA" ++ 32 :: printInt (Int32.ofInt e.size)).drop 4 =
          32 :: printInt (Int32.ofInt e.size) := rfl
      rw [hdrop, scanInt_skipSpaces, hscan]
    rw [hsome]
    simp only [hsize, hname, hord, restored, hc]
    rw [Int32.toInt_ofInt_of_le h.int_size.1 h.int_size.2]
    rfl

/-! ### The whole file -/

/-- A line as `fgets` delivers it. -/
def chunkOf (line : Bytes) : Bytes := line ++ [13] ++ [10]

theorem stripEol_chunk {line : Bytes} (h : 0 ∉ line) : stripEol (stripEol (readCString (chunkOf line))) = line := by
  have hread : readCString (chunkOf line) = line ++ [13] ++ [10] := by
    refine List.takeWhile_eq_self_iff.mpr fun c hc => decide_eq_true ?_
    rintro rfl
    simp only [chunkOf, List.mem_append, List.mem_singleton] at hc
    rcases hc with (hc | hc) | hc
    · exact h hc
    · exact absurd hc (by decide)
    · exact absurd hc (by decide)
  have h10 : stripEol (line ++ [13] ++ [10]) = line ++ [13] := by
    rw [stripEol, if_pos (.inr List.getLast?_concat), List.dropLast_concat]
  rw [hread, h10, stripEol, if_pos (.inl List.getLast?_concat), List.dropLast_concat]

theorem modify_length_append {α : Type} (xs : List α) (a : α) (f : α → α) :
    (xs ++ [a]).modify xs.length f = xs ++ [f a] := by
  induction xs with
  | nil => rfl
  | cons x xs ih => rw [List.cons_append, List.length_cons, List.modify_succ_cons, ih, List.cons_append]

theorem addExportOrdinal_next (l : ExportList) (e : Export) (n : CString) :
    (l.addExportOrdinal (restored l.exports.length e n)).exports =
      l.exports ++ [⟨some n, 0, e.code, if e.code then 0 else e.size⟩] := by
  have hpad : l.exports.length + 1 - l.exports.length = 1 := by omega
  unfold ExportList.addExportOrdinal restored
  simp only [hpad, List.replicate_one, Nat.add_sub_cancel]
  rw [modify_length_append]
  rfl

theorem zero_notMem_defLine {epocVersion i : ℕ} {n : CString} (hv : EPOC_VERSION_9_1 < epocVersion)
    (h : DefExport e n) : 0 ∉ defLine epocVersion i e ∧ 10 ∉ defLine epocVersion i e := by
  have hn : (10 : UInt8) ∉ n.chars := fun h0 => absurd (h.defName.plain _ h0).1 (by decide)
  have h0 : (0 : UInt8) ∉ defTail i e := not_mem_defTail (by decide) (by decide) (by decide) (by decide)
  have h10 : (10 : UInt8) ∉ defTail i e := not_mem_defTail (by decide) (by decide) (by decide) (by decide)
  rw [defLine_eq hv h]
  simp only [List.mem_append, List.mem_cons, not_or]
  exact ⟨⟨⟨by decide, n.noNul⟩, by decide, by decide, by decide, h0⟩,
    ⟨⟨by decide, hn⟩, by decide, by decide, by decide, h10⟩⟩

theorem parseDefChunks_line {epocVersion : ℕ} {n : CString} {l : ExportList}
    (hv : EPOC_VERSION_9_1 < epocVersion) (h : DefExport e n) (hi : l.exports.length + 1 < 2 ^ 32)
    (chunks : List Bytes) :
    parseDefChunks true (chunkOf (defLine epocVersion l.exports.length e) :: chunks) l =
      parseDefChunks true chunks (l.addExportOrdinal (restored l.exports.length e n)) := by
  rw [parseDefChunks, stripEol_chunk (zero_notMem_defLine hv h).1, defLine_eq hv h, parseDefLine_line h hi]
  simp

theorem parseDefChunks_newLine (chunks : List Bytes) (l : ExportList) :
    parseDefChunks true (chunkOf newLine :: chunks) l = parseDefChunks true chunks l := by
  rw [parseDefChunks, stripEol_chunk (by decide)]
  rfl

/-- An export as the file holds it. -/
def Export.frozen (e : Export) : Export := { e with address := 0, size := if e.code then 0 else e.size }

theorem parseDefChunks_lines {epocVersion : ℕ} (hv : EPOC_VERSION_9_1 < epocVersion) (presetOrdinals : ℕ)
    (chunks : List Bytes) : ∀ {es : List Export} {l : ExportList}, (∀ e ∈ es, ∃ n, DefExport e n) →
    l.exports.length + es.length < 2 ^ 32 →
    ∃ l' : ExportList, l'.exports = l.exports ++ es.map Export.frozen ∧
      parseDefChunks true ((defLines epocVersion presetOrdinals l.exports.length es).map chunkOf ++ chunks) l =
        parseDefChunks true chunks l'
  | [], l, _, _ => ⟨l, by simp, rfl⟩
  | e :: es, l, h, hlen => by
    obtain ⟨n, hn⟩ := h e List.mem_cons_self
    have hnext := addExportOrdinal_next l e n
    have hfrozen : (⟨some n, 0, e.code, if e.code then 0 else e.size⟩ : Export) = e.frozen := by
      rw [Export.frozen, hn.name]
    rw [hfrozen] at hnext
    have hlen' : (l.addExportOrdinal (restored l.exports.length e n)).exports.length = l.exports.length + 1 := by
      rw [hnext, List.length_append, List.length_singleton]
    rw [List.length_cons] at hlen
    have hes : ∀ e' ∈ es, ∃ n, DefExport e' n := fun e' he' => h e' (List.mem_cons_of_mem _ he')
    have hi : l.exports.length + 1 < 2 ^ 32 := by omega
    have hfit : (l.addExportOrdinal (restored l.exports.length e n)).exports.length + es.length < 2 ^ 32 := by omega
    obtain ⟨l', hl', hrest⟩ := parseDefChunks_lines hv presetOrdinals chunks hes hfit
    refine ⟨l', ?_, ?_⟩
    · rw [hl', hnext, List.append_assoc]
      rfl
    · rw [hlen'] at hrest
      have hline := parseDefChunks_line hv hn hi
        ((defLines epocVersion presetOrdinals (l.exports.length + 1) es).map chunkOf ++ chunks)
      rw [← hrest, ← hline, defLines]
      by_cases hp : l.exports.length = presetOrdinals
      · rw [if_pos hp, List.singleton_append, List.map_cons, List.cons_append, parseDefChunks_newLine]
        rfl
      · rw [if_neg hp, List.nil_append]
        rfl

/-- What the reader needs of a list: every export has its address and a name the format can hold, every
line with its end fits the buffer, and the ordinals fit 32 bits. -/
structure DefFits (epocVersion : ℕ) (l : ExportList) : Prop where
  exports : ∀ e ∈ l.exports, ∃ n, DefExport e n
  lines : ∀ i e, l.exports[i]? = some e → (defLine epocVersion i e).length + 2 < 500
  ordinals : l.exports.length < 2 ^ 32

theorem mem_defLines {epocVersion presetOrdinals : ℕ} {line : Bytes} : ∀ {i : ℕ} {es : List Export},
    line ∈ defLines epocVersion presetOrdinals i es →
      line = newLine ∨ ∃ j e, es[j]? = some e ∧ line = defLine epocVersion (i + j) e
  | _, [], h => absurd h List.not_mem_nil
  | i, e :: es, h => by
    rcases List.mem_append.mp h with h | h
    · left
      split at h
      · exact List.mem_singleton.mp h
      · exact absurd h List.not_mem_nil
    · rcases List.mem_cons.mp h with rfl | h
      · exact .inr ⟨0, e, rfl, rfl⟩
      · refine (mem_defLines h).imp_right ?_
        rintro ⟨j, e', he', rfl⟩
        exact ⟨j + 1, e', he', by rw [Nat.add_assoc, Nat.add_comm 1 j]⟩

theorem flatMap_crlf (lines : List Bytes) :
    lines.flatMap (· ++ chars "\r\n") = (lines.map (· ++ [13])).flatMap (· ++ [10]) := by
  rw [List.flatMap_map]
  refine List.flatMap_congr fun l _ => ?_
  show l ++ [13, 10] = l ++ [13] ++ [10]
  rw [List.append_assoc]
  rfl

/-- Each line of the file is one chunk of `fgets`. -/
theorem fgetsChunks_writeDef {epocVersion : ℕ} {l : ExportList} (hv : EPOC_VERSION_9_1 < epocVersion)
    (h : DefFits epocVersion l) :
    fgetsChunks 500 (l.writeDef epocVersion) =
      (chars "EXPORTS" :: defLines epocVersion l.presetOrdinals 0 l.exports ++ [[]]).map chunkOf := by
  have hmap : (chars "EXPORTS" :: defLines epocVersion l.presetOrdinals 0 l.exports ++ [[]]).map chunkOf =
      ((chars "EXPORTS" :: defLines epocVersion l.presetOrdinals 0 l.exports ++ [[]]).map (· ++ [13])).map
        (· ++ [10]) := by
    rw [List.map_map]
    rfl
  rw [ExportList.writeDef, flatMap_crlf, hmap]
  refine fgetsChunks_lines fun line hline => ?_
  obtain ⟨line', hline', rfl⟩ := List.mem_map.mp hline
  have hshort : line'.length + 2 < 500 ∧ 10 ∉ line' := by
    rcases List.mem_append.mp hline' with hline' | hline'
    · rcases List.mem_cons.mp hline' with rfl | hline'
      · exact ⟨by decide, by decide⟩
      · rcases mem_defLines hline' with rfl | ⟨j, e, he, rfl⟩
        · exact ⟨by decide, by decide⟩
        · rw [Nat.zero_add]
          obtain ⟨n, hn⟩ := h.exports e (List.mem_of_getElem? he)
          exact ⟨h.lines j e he, (zero_notMem_defLine hv hn).2⟩
    · rw [List.mem_singleton.mp hline']
      exact ⟨by decide, by decide⟩
  refine ⟨?_, ?_⟩
  · rw [List.length_append, List.length_singleton]
    exact hshort.1
  · rw [List.mem_append, not_or]
    exact ⟨hshort.2, by decide⟩

/-- **The definition file.**  Where every export has its address and every line fits the buffer, reading
the written file into an empty list restores the ordinals, the names, the flags and the sizes of data. -/
theorem parseDefFile_writeDef {epocVersion : ℕ} {l : ExportList} (hv : EPOC_VERSION_9_1 < epocVersion)
    (h : DefFits epocVersion l) :
    (parseDefFile (l.writeDef epocVersion) ExportList.empty).exports = l.exports.map Export.frozen := by
  have hlen : ExportList.empty.exports.length + l.exports.length < 2 ^ 32 := by
    simpa [ExportList.empty] using h.ordinals
  obtain ⟨l', hl', hparse⟩ := parseDefChunks_lines hv l.presetOrdinals [chunkOf []] h.exports hlen
  have hheader (chunks : List Bytes) : parseDefChunks false (chunkOf (chars "EXPORTS") :: chunks) ExportList.empty =
      parseDefChunks true chunks ExportList.empty := by
    rw [parseDefChunks, stripEol_chunk (by decide)]
    rfl
  rw [parseDefFile, fgetsChunks_writeDef hv h, List.cons_append, List.map_cons, hheader, List.map_append,
    List.map_singleton]
  have hzero : ExportList.empty.exports.length = 0 := rfl
  rw [hzero] at hparse
  rw [hparse]
  exact hl'

/-- A frozen function, and a new data export of four bytes whose name holds both `@` and `DATA`. -/
def twoExports : ExportList :=
  ⟨[⟨some (CString.ofBytes (chars "f")), 0x8000, true, 0⟩,
    ⟨some (CString.ofBytes (chars "x@DATA")), 0x400000, false, 4⟩], 1⟩

theorem parseDefFile_writeDef_two :
    (parseDefFile (twoExports.writeDef 0x902) ExportList.empty).exports = twoExports.exports.map Export.frozen := by
  refine parseDefFile_writeDef (by decide) ⟨?_, ?_, by decide⟩
  · intro e he
    rcases List.mem_cons.mp he with rfl | he
    · exact ⟨_, rfl, DefName.of_all (by decide) (by decide), by decide, by decide⟩
    · rw [List.mem_singleton.mp he]
      exact ⟨_, rfl, DefName.of_all (by decide) (by decide), by decide, by decide⟩
  · intro i e he
    rcases i with _ | _ | i
    · rw [← Option.some.inj he]
      decide
    · rw [← Option.some.inj he]
      decide
    · cases he

/-- A list of one frozen function. -/
def oneExport (name : Bytes) (address : UInt32) : ExportList := ⟨[⟨some (CString.ofBytes name), address, true, 0⟩], 1⟩

/-- An export without an address is read as a comment, and of a name of 500 characters only the end that
fell into a second chunk is left. -/
theorem parseDefFile_writeDef_missing_or_long :
    (parseDefFile ((oneExport (chars "f") 0).writeDef 0x902) ExportList.empty).exports ≠
        (oneExport (chars "f") 0).exports.map Export.frozen ∧
      (parseDefFile ((oneExport (List.replicate 500 97) 0x8000).writeDef 0x902) ExportList.empty).exports ≠
        (oneExport (List.replicate 500 97) 0x8000).exports.map Export.frozen := by
  constructor
  · decide +kernel
  · decide +kernel

end GnuPoc.Elf
