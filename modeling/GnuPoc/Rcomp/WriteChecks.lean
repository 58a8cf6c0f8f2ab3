import GnuPoc.Rcomp.CallRuns
import GnuPoc.Rcomp.Contents
import GnuPoc.Rcomp.FixedSize
import GnuPoc.Rcomp.SourceText
import GnuPoc.Rcomp.ValueChecks

/-!
# GnuPoc.Rcomp.WriteChecks — the assertions on the way to the resource file (`rcomp.y`, `resource.cpp`, `rcostrm.cpp`)

A source text that parses has its resources in the index, with the items that the grammar made and their defaults.
Writing them comes to an assertion that fails exactly where a value is not what its type asserts, or where a length
between compressed strings grows to 0x8000; `Set` checks the exported length of what is assigned, and no more.
-/

namespace GnuPoc.Rcomp

open GnuPoc.Lib

/-! ### Blocks -/

/-- The items close the blocks that they open. -/
def Closed (items : List Item) : Prop :=
  ∀ depth j rest, (∀ j', Nested depth (numbered j' rest)) → Nested depth (numbered j (items ++ rest))

def Item.isPlain : Item → Bool
  | .StartOfBlockWithSizePrefix _ => false
  | .EndOfBlockWithSizePrefix => false
  | _ => true

theorem closed_nil : Closed [] := fun _ j _ h => h j

theorem Closed.append {xs ys : List Item} (hxs : Closed xs) (hys : Closed ys) : Closed (xs ++ ys) := by
  intro depth j rest h
  rw [List.append_assoc]
  exact hxs depth j (ys ++ rest) fun j' => hys depth j' rest h

theorem closed_item {item : Item} (h : item.isPlain = true) : Closed [item] := by
  intro depth j rest hrest
  cases item with
  | StartOfBlockWithSizePrefix type => exact Bool.noConfusion h
  | EndOfBlockWithSizePrefix => exact Bool.noConfusion h
  | StreamIn bytes => cases depth <;> exact hrest j
  | MakePlaceHolder n => cases depth <;> exact hrest j
  | StreamOutCompressingIfReducesSize words => cases depth <;> exact hrest j
  | WordLink name => cases depth <;> exact hrest (j + 1)
  | LongLink name => cases depth <;> exact hrest (j + 1)

theorem closed_plain {items : List Item} (h : items.all Item.isPlain = true) : Closed items := by
  induction items with
  | nil => exact closed_nil
  | cons item items ih =>
    rw [List.all_cons, Bool.and_eq_true] at h
    exact (closed_item h.1).append (ih h.2)

theorem closed_withSizePrefix {items : List Item} (iLenType : Option DataType) (h : Closed items) :
    Closed (withSizePrefix iLenType items) := by
  cases iLenType with
  | none => exact h
  | some type =>
    intro depth j rest hrest
    have hinside := h (depth + 1) j (.EndOfBlockWithSizePrefix :: rest) hrest
    rw [withSizePrefix, List.append_assoc]
    cases depth <;> exact hinside

section
variable {conv : Conversions}

theorem singleValue_plain {text : String} {link : UInt64} {type : ItemType} {items : List Item}
    (h : StreamOutSingleValue conv text link type = .ok items) : items.all Item.isPlain = true := by
  have hnumber : ∀ {type : DataType} {items : List Item}, (do
      let bytes ← numberBytes type text
      (.ok [.StreamIn bytes] : Run (List Item))) = .ok items → items.all Item.isPlain = true := by
    intro type items h
    obtain ⟨bytes, -, h⟩ := bind_eq_ok.mp h
    rw [← Except.ok.inj h]
    rfl
  have hlink : ∀ {type : DataType} {item : Item}, item.isPlain = true → (if text.length = 0 then .ok []
      else if IsDecNatural text then do
        let bytes ← numberBytes type text
        (.ok [.StreamIn bytes] : Run (List Item))
      else .ok [item]) = .ok items → items.all Item.isPlain = true := by
    intro type item hitem h
    split at h
    · rw [← Except.ok.inj h]
      rfl
    · split at h
      · exact hnumber h
      · rw [← Except.ok.inj h, List.all_cons, hitem]
        rfl
  cases type with
  | L_BYTE =>
    obtain ⟨-, -, h⟩ := bind_eq_ok.mp h
    exact hnumber h
  | L_WORD =>
    obtain ⟨-, -, h⟩ := bind_eq_ok.mp h
    exact hnumber h
  | L_LONG =>
    obtain ⟨-, -, h⟩ := bind_eq_ok.mp h
    exact hnumber h
  | L_LINK => exact hlink rfl h
  | L_LLINK => exact hlink rfl h
  | L_DOUBLE =>
    obtain ⟨-, -, h⟩ := bind_eq_ok.mp h
    rw [← Except.ok.inj h]
    rfl
  | L_LTEXT8 =>
    obtain ⟨-, -, h⟩ := bind_eq_ok.mp h
    rw [← Except.ok.inj h]
    rfl
  | L_BUF8 =>
    obtain ⟨-, -, h⟩ := bind_eq_ok.mp h
    rw [← Except.ok.inj h]
    rfl
  | L_LTEXT16 =>
    obtain ⟨-, -, h⟩ := bind_eq_ok.mp h
    rw [← Except.ok.inj h]
    rfl
  | L_TEXT8 =>
    rw [← Except.ok.inj h]
    rfl
  | L_TEXT16 =>
    rw [← Except.ok.inj h]
    rfl
  | L_BUF16 =>
    rw [← Except.ok.inj h]
    rfl
  | L_SRLINK =>
    rw [← Except.ok.inj h]
    rfl

theorem streamValues_closed {type : ItemType} {values : List String} {items : List Item}
    (h : streamValues conv type values = .ok items) : Closed items := by
  induction values generalizing items with
  | nil =>
    rw [← Except.ok.inj h]
    exact closed_nil
  | cons value values ih =>
    obtain ⟨-, -, h⟩ := bind_eq_ok.mp h
    obtain ⟨front, hfront, h⟩ := bind_eq_ok.mp h
    obtain ⟨rest, hrest, h⟩ := bind_eq_ok.mp h
    rw [← Except.ok.inj h]
    exact (closed_plain (singleValue_plain hfront)).append (ih hrest)

theorem closed_block {items : List Item} {iLenType : Option DataType} {condition : Prop} [Decidable condition]
    (h : Closed items) : Closed (if condition then [] else withSizePrefix iLenType items) := by
  split
  · exact closed_nil
  · exact closed_withSizePrefix iLenType h

mutual

theorem item_closed : ∀ (p : ResourceItem) {items : List Item}, p.StreamOut conv = .ok items → Closed items
  | .simple item value valueSet link, items, h => closed_plain (singleValue_plain h)
  | .array item values, items, h => by
    rw [ResourceItem.StreamOut] at h
    obtain ⟨rest, hrest, h⟩ := bind_eq_ok.mp h
    rw [← Except.ok.inj h]
    refine Closed.append ?_ (streamValues_closed hrest)
    split
    · exact closed_item rfl
    · exact closed_nil
  | .structType item (.mk iLenType inside), items, h => by
    rw [ResourceItem.StreamOut] at h
    obtain ⟨rest, hrest, h⟩ := bind_eq_ok.mp h
    rw [← Except.ok.inj h]
    exact closed_block (items_closed inside hrest)
  | .structArray item arrays, items, h => by
    rw [ResourceItem.StreamOut] at h
    obtain ⟨rest, hrest, h⟩ := bind_eq_ok.mp h
    rw [← Except.ok.inj h]
    have hcount : Closed [itemcount item.iLenType arrays.length] := closed_item rfl
    exact hcount.append (arrays_closed arrays hrest)

theorem items_closed : ∀ (ps : List ResourceItem) {items : List Item}, streamItems conv ps = .ok items → Closed items
  | [], items, h => by
    rw [streamItems] at h
    rw [← Except.ok.inj h]
    exact closed_nil
  | p :: ps, items, h => by
    rw [streamItems] at h
    obtain ⟨front, hfront, h⟩ := bind_eq_ok.mp h
    obtain ⟨rest, hrest, h⟩ := bind_eq_ok.mp h
    rw [← Except.ok.inj h]
    exact (item_closed p hfront).append (items_closed ps hrest)

theorem arrays_closed : ∀ (arrays : List ResourceItemArray) {items : List Item}, streamArrays conv arrays = .ok items →
    Closed items
  | [], items, h => by
    rw [streamArrays] at h
    rw [← Except.ok.inj h]
    exact closed_nil
  | .mk iLenType inside :: arrays, items, h => by
    rw [streamArrays] at h
    obtain ⟨front, hfront, h⟩ := bind_eq_ok.mp h
    obtain ⟨rest, hrest, h⟩ := bind_eq_ok.mp h
    rw [← Except.ok.inj h]
    exact (closed_block (items_closed inside hfront)).append (arrays_closed arrays hrest)

end

theorem nested_streamOut {ria : ResourceItemArray} {items : List Item} (h : ria.StreamOut conv = .ok items) :
    Nested 0 (numbered 0 items) := by
  have hclosed := items_closed ria.items h 0 0 [] fun _ => rfl
  rwa [List.append_nil] at hclosed

end

/-! ### The compressor with the room that it has -/

/-- What `CompressUnicode` has put in the buffer, where that is shorter than the string. -/
def compressText (words : List UInt16) : Bytes :=
  match CompressUnicode (2 * words.length) words with
  | .ok (buffer, length) => if length < 2 * words.length then buffer.take length else wordBytes words
  | .error _ => wordBytes words

theorem compressText_ok {words : List UInt16} {buffer : Bytes} {length : ℕ}
    (h : CompressUnicode (2 * words.length) words = .ok (buffer, length)) :
    compressText words = if length < 2 * words.length then buffer.take length else wordBytes words := by
  rw [compressText, h]

theorem compressText_short {words : List UInt16} {buffer : Bytes} {length : ℕ}
    (h : CompressUnicode (2 * words.length) words = .ok (buffer, length)) :
    (compressText words).length < 2 * words.length ↔ length < 2 * words.length := by
  rw [compressText_ok h]
  split
  next hshort =>
    refine iff_of_true ?_ hshort
    rw [List.length_take]
    exact Nat.lt_of_le_of_lt (Nat.min_le_left _ _) hshort
  next hlong =>
    refine iff_of_false ?_ hlong
    rw [length_wordBytes]
    exact lt_irrefl _

/-- `compressText` is what the streams take as given: with the call of `CompressUnicode` it is
`StreamOutCompressingIfReducesSize`. -/
theorem streamOutWithinLimit_eq (s : ResourceDataStream) (words : List UInt16) : StreamOutWithinLimit s words = (do
    let _ ← CompressUnicode (2 * words.length) words
    .ok (s.StreamOutCompressingIfReducesSize compressText words)) := by
  unfold StreamOutWithinLimit ResourceDataStream.StreamOutCompressingIfReducesSize
  dsimp only
  cases h : CompressUnicode (2 * words.length) words with
  | error e => rfl
  | ok result =>
    obtain ⟨buffer, length⟩ := result
    rw [run_ok_bind, run_ok_bind]
    dsimp only
    by_cases hshort : length < 2 * words.length
    · rw [if_pos hshort, if_pos ((compressText_short h).mpr hshort), compressText_ok h, if_pos hshort]
    · rw [if_neg hshort, if_neg fun hless => hshort ((compressText_short h).mp hless)]
      by_cases hpos : 0 < 2 * words.length
      · rw [if_pos hpos, if_pos hpos]
      · rw [if_neg hpos, if_neg hpos]

/-- A compressor whose results are read back, with `compressText` wherever that is used. -/
theorem exists_like_compressText : ∃ (compress : List UInt16 → Bytes) (expander : Bytes → List UInt16),
    (∀ words, expander (compress words) = words) ∧ expander [] = [] ∧
      ∀ words, if (compressText words).length < 2 * words.length then compress words = compressText words
        else 2 * words.length ≤ (compress words).length := by
  choose whole hdecode hwhole using compressUnicode_room
  refine ⟨fun words => if (compressText words).length < 2 * words.length then compressText words else whole words,
    fun bytes => (decode .start bytes).getD [], fun words => ?_, rfl, fun words => ?_⟩
  · by_cases hshort : (compressText words).length < 2 * words.length
    · have hroom : ∃ buffer length, CompressUnicode (2 * words.length) words = .ok (buffer, length) := by
        rcases compressUnicode_cases words with ⟨-, ⟨buffer, length⟩, hok⟩ | ⟨-, herror⟩
        · exact ⟨buffer, length, hok⟩
        · rw [compressText, herror, length_wordBytes] at hshort
          exact absurd hshort (lt_irrefl _)
      obtain ⟨buffer, length, hok⟩ := hroom
      have hcost : words = [] ∨ Reader.start.readCost [] words.dropLast < 2 * words.length := by
        by_contra hcost
        rw [not_or, not_lt] at hcost
        rcases compressUnicode_cases words with ⟨hnot, -⟩ | ⟨-, herror⟩
        · exact hnot hcost
        · cases hok.symm.trans herror
      obtain ⟨buffer', length', hok', -, hdone, -⟩ := (compressUnicode_within_iff words).mpr hcost
      obtain ⟨rfl, rfl⟩ := Prod.mk.inj (Except.ok.inj (hok.symm.trans hok'))
      have hlength := (compressText_short hok).mp hshort
      obtain ⟨-, -, -, -, -, -, -, hsize, hread⟩ := hdone hlength
      dsimp only
      rw [if_pos hshort, compressText_ok hok, if_pos hlength, ← hsize, List.take_length, hread]
      rfl
    · dsimp only
      rw [if_neg hshort, hdecode]
      rfl
  · by_cases hshort : (compressText words).length < 2 * words.length
    · rw [if_pos hshort]
      exact if_pos hshort
    · rw [if_neg hshort]
      dsimp only
      rw [if_neg hshort]
      by_contra hless
      have hok := hwhole words (2 * words.length) (by omega)
      exact hshort ((compressText_short hok).mpr (by omega))

/-! ### Streaming out with either compressor -/

section
variable {compress : List UInt16 → Bytes} (hlike : ∀ words,
  if (compressText words).length < 2 * words.length then compress words = compressText words
    else 2 * words.length ≤ (compress words).length)

include hlike

theorem shorter_iff (words : List UInt16) :
    (compress words).length < 2 * words.length ↔ (compressText words).length < 2 * words.length := by
  have hwords := hlike words
  by_cases hshort : (compressText words).length < 2 * words.length
  · rw [if_pos hshort] at hwords
    rw [hwords]
  · rw [if_neg hshort] at hwords
    exact iff_of_false (not_lt.mpr hwords) hshort

theorem compress_eq {words : List UInt16} (hshort : (compressText words).length < 2 * words.length) :
    compress words = compressText words := by
  have hwords := hlike words
  rwa [if_pos hshort] at hwords

theorem perform_like (s : ResourceDataStream) (call : Call) :
    s.perform compress call = s.perform compressText call := by
  cases call with
  | StreamOutCompressingIfReducesSize words =>
    show s.StreamOutCompressingIfReducesSize compress words = s.StreamOutCompressingIfReducesSize compressText words
    unfold ResourceDataStream.StreamOutCompressingIfReducesSize
    dsimp only
    by_cases hshort : (compressText words).length < 2 * words.length
    · rw [compress_eq hlike hshort]
    · rw [if_neg hshort, if_neg fun h => hshort ((shorter_iff hlike words).mp h)]
  | StreamIn bytes => rfl
  | MakePlaceHolder n => rfl
  | StartOfBlockWithSizePrefix type => rfl
  | EndOfBlockWithSizePrefix => rfl
  | link k type => rfl

theorem streamOut_like (symbianV6hack : Bool) (r : ResourceHeader) (aStream : RCBinaryStream) :
    StreamOut compress symbianV6hack r aStream = StreamOut compressText symbianV6hack r aStream := by
  have hperform : ResourceDataStream.perform compress = ResourceDataStream.perform compressText :=
    funext fun s => funext fun call => perform_like hlike s call
  unfold StreamOut ResourceDataStream.collect
  rw [hperform]

theorem compressed?_like (call : Call) : call.compressed? compress = call.compressed? compressText := by
  cases call with
  | StreamOutCompressingIfReducesSize words =>
    show (if (compress words).length < 2 * words.length then some words else none) =
      if (compressText words).length < 2 * words.length then some words else none
    by_cases hshort : (compressText words).length < 2 * words.length
    · rw [if_pos hshort, if_pos ((shorter_iff hlike words).mpr hshort)]
    · rw [if_neg hshort, if_neg fun h => hshort ((shorter_iff hlike words).mp h)]
  | StreamIn bytes => rfl
  | MakePlaceHolder n => rfl
  | StartOfBlockWithSizePrefix type => rfl
  | EndOfBlockWithSizePrefix => rfl
  | link k type => rfl

omit hlike in
theorem compressed?_eq_some {call : Call} {words : List UInt16} (h : call.compressed? compress = some words) :
    (compress words).length < 2 * words.length := by
  cases call with
  | StreamOutCompressingIfReducesSize words' =>
    by_cases hshort : (compress words').length < 2 * words'.length
    · have hwords : words' = words := Option.some_inj.mp ((if_pos hshort).symm.trans h)
      rwa [hwords] at hshort
    · cases (if_neg hshort).symm.trans h
  | StreamIn bytes => cases h
  | MakePlaceHolder n => cases h
  | StartOfBlockWithSizePrefix type => cases h
  | EndOfBlockWithSizePrefix => cases h
  | link k type => cases h

theorem callRuns_like (symbianV6hack : Bool) (calls : List Call) : ∀ offset,
    callRuns compress symbianV6hack offset calls = callRuns compressText symbianV6hack offset calls := by
  induction calls with
  | nil => exact fun _ => rfl
  | cons call calls ih =>
    intro offset
    rw [callRuns, callRuns, ih, compressed?_like hlike]
    cases hcall : call.compressed? compressText with
    | none => rfl
    | some words =>
      have hshort := compressed?_eq_some hcall
      dsimp only
      rw [compress_eq hlike hshort]

end

/-- **The lengths of a resource**, with the compressor as it is called. -/
theorem streamOut_cases (symbianV6hack : Bool) (r : ResourceHeader) (hnested : Nested 0 (numbered 0 r.iRIA))
    (file : Bytes) :
    (¬ Short (compressedRuns compressText symbianV6hack (numbered 0 r.iRIA)) ∧
      ∃ m, StreamOut compressText symbianV6hack r (.atEnd file) = .error (.runLength m)) ∨
    (Short (compressedRuns compressText symbianV6hack (numbered 0 r.iRIA)) ∧
      ∃ out data, StreamOut compressText symbianV6hack r (.atEnd file) = .ok out ∧
        out.aStream = .atEnd (file ++ data)) := by
  obtain ⟨compress, expander, hcompress, hempty, hlike⟩ := exists_like_compressText
  have hruns : compressedRuns compress symbianV6hack (numbered 0 r.iRIA) =
      compressedRuns compressText symbianV6hack (numbered 0 r.iRIA) := by
    rw [compressedRuns, compressedRuns, callRuns_like hlike]
  have hcases := streamOut_placed hcompress hempty symbianV6hack [] r hnested file
  rw [hruns, streamOut_like hlike] at hcases
  rcases hcases with hlong | ⟨hshort, out, data, final, hout, hplaced⟩
  · exact .inl hlong
  · exact .inr ⟨hshort, out, data, hout, hplaced.aStream⟩

/-! ### Writing a source text -/

def ParsedResource.header (r : ParsedResource) (items : List Item) : ResourceHeader :=
  ⟨r.iLabel, r.iLocal, items, r.iResourceId, r.iFormatAsHex, false⟩

section
variable (conv : Conversions) (symbianV6hack : Bool)

/-- A round of `WriteBinaryResourceData`: the values are streamed out one after the other, each with its call of
`CompressUnicode`, before the stream of the resource is given out. -/
def ParsedResource.write (st : Progress) (r : ParsedResource) : Run Progress := do
  checkOffset st.aRSC.GetPosition
  r.iRIA.values.forM (StreamedValue.stream conv)
  let items ← r.iRIA.StreamOut conv
  writeResource compressText symbianV6hack st ⟨r.header items, 0⟩

/-- `WriteResourceFile` of what the grammar has left. -/
def ParsedText.WriteResourceFile (aThirdUidIsOffset : Bool) (aRSC : RCBinaryStream) (g : ParsedText) :
    Run (RCBinaryStream × List IndexTableItem) := do
  let os := aRSC.Write (flagBytes symbianV6hack aThirdUidIsOffset)
  let positionToOverWriteFrom := os.GetPosition
  let os := makeSpace symbianV6hack os (g.Index.map fun r => ⟨r.header [], 0⟩)
  let st ← g.Index.foldlM (ParsedResource.write conv symbianV6hack) ⟨os, [], [], 0⟩
  let offs := st.aRSC.GetPosition
  checkOffset offs
  let os := st.aRSC.Write (indexBytes st.aIndex offs)
  let endPos := os.GetPosition
  let os := (os.SetPosition positionToOverWriteFrom).Write (headerBytes symbianV6hack st offs endPos)
  let os ← st.links.foldlM (OverwriteLink g.ResourceNameIds) os
  .ok (os, st.aIndex)

/-- The values of a resource are what their types assert, up to one that ends the program, and its lengths stay
below 0x8000. -/
def ParsedResource.Safe (r : ParsedResource) : Prop :=
  AllPass conv r.iRIA.values ∧ ((∀ v ∈ r.iRIA.values, ¬ v.Ends conv) → ∀ items, r.iRIA.StreamOut conv = .ok items →
    Short (compressedRuns compressText symbianV6hack (numbered 0 items)))

/-- Every resource is, up to one that ends the program. -/
def AllSafe : List ParsedResource → Prop
  | [] => True
  | r :: rs => r.Safe conv symbianV6hack ∧ ((∀ v ∈ r.iRIA.values, ¬ v.Ends conv) → AllSafe rs)

end

/-- The run comes to an assertion other than that on an offset. -/
def Asserts {α : Type} (result : Run α) : Prop := result = .error .assertion ∨ ∃ m, result = .error (.runLength m)

theorem not_asserts_ok {α : Type} (a : α) : ¬ Asserts (.ok a : Run α) := by
  rintro (h | ⟨m, h⟩)
  · cases h
  · cases h

theorem not_asserts_exits {α : Type} : ¬ Asserts (.error (.exits 1) : Run α) := by
  rintro (h | ⟨m, h⟩)
  · cases h
  · cases h

theorem Asserts.bind {α β : Type} {x : Run α} {f : α → Run β} (h : Asserts x) : Asserts (x >>= f) := by
  rcases h with h | ⟨m, h⟩
  · rw [h]
    exact .inl rfl
  · rw [h]
    exact .inr ⟨m, rfl⟩

section
variable {conv : Conversions} {symbianV6hack : Bool}

theorem writeResource_eq {st : Progress} {p : IndexTableItem} (hpos : st.aRSC.GetPosition ≤ 0xFFFF) :
    writeResource compressText symbianV6hack st p = (do
      let out ← StreamOut compressText symbianV6hack p.iResource st.aRSC
      .ok { aRSC := out.aStream
            aIndex := st.aIndex ++ [⟨{ p.iResource with
              iContainsCompressedUnicode := out.containsCompressedUnicode }, st.aRSC.GetPosition⟩]
            links := st.links ++ linkItems (linksOf p.iResource.iRIA) out.positions
            aSizeOfLargestResourceWhenUncompressed :=
              max st.aSizeOfLargestResourceWhenUncompressed out.aSizeWhenUncompressed }) := by
  rw [writeResource, checkOffset, if_pos hpos, run_ok_bind]

/-- **A resource is written** behind what is there, where it is safe; else an assertion fails. -/
theorem write_cases (r : ParsedResource) {st : Progress} {file : Bytes} (hst : st.aRSC = .atEnd file) :
    (∃ n, r.write conv symbianV6hack st = .error (.offset n)) ∨
    (r.Safe conv symbianV6hack ∧ (∀ v ∈ r.iRIA.values, ¬ v.Ends conv) ∧
      ∃ st' file', r.write conv symbianV6hack st = .ok st' ∧ st'.aRSC = .atEnd file') ∨
    (r.Safe conv symbianV6hack ∧ (∃ v ∈ r.iRIA.values, v.Ends conv) ∧
      r.write conv symbianV6hack st = .error (.exits 1)) ∨
    (¬ r.Safe conv symbianV6hack ∧ Asserts (r.write conv symbianV6hack st)) := by
  by_cases hpos : st.aRSC.GetPosition ≤ 0xFFFF
  · have hwrite : r.write conv symbianV6hack st = (do
        r.iRIA.values.forM (StreamedValue.stream conv)
        let items ← r.iRIA.StreamOut conv
        writeResource compressText symbianV6hack st ⟨r.header items, 0⟩) := by
      rw [ParsedResource.write, checkOffset, if_pos hpos, run_ok_bind]
    rw [hwrite]
    rcases @values_stream conv r.iRIA.values with ⟨hall, hnone, hrun⟩ | ⟨hall, hsome, hrun⟩ | ⟨hall, hrun⟩
    · have hends : ∀ v ∈ r.iRIA.values, ¬ v.Ends conv := fun v hv hend => hnone ⟨v, hv, hend⟩
      obtain ⟨items, hitems⟩ := streamOut_of_values hrun
      rw [hrun, run_ok_bind, hitems, run_ok_bind, writeResource_eq hpos, hst]
      have hsafe : r.Safe conv symbianV6hack ↔
          Short (compressedRuns compressText symbianV6hack (numbered 0 items)) := by
        constructor
        · rintro ⟨-, hshort⟩
          exact hshort hends items hitems
        · intro hshort
          refine ⟨hall, fun _ items' hitems' => ?_⟩
          rwa [Except.ok.inj (hitems'.symm.trans hitems)]
      rcases streamOut_cases symbianV6hack (r.header items) (nested_streamOut hitems) file with
        ⟨hlong, m, hm⟩ | ⟨hshort, out, data, hout, hstream⟩
      · rw [hm]
        exact .inr (.inr (.inr ⟨fun h => hlong (hsafe.mp h), .inr ⟨m, rfl⟩⟩))
      · rw [hout]
        exact .inr (.inl ⟨hsafe.mpr hshort, hends, _, file ++ data, rfl, hstream⟩)
    · rw [hrun]
      refine .inr (.inr (.inl ⟨⟨hall, fun hnone => ?_⟩, hsome, rfl⟩))
      obtain ⟨v, hv, hend⟩ := hsome
      exact absurd hend (hnone v hv)
    · rw [hrun]
      exact .inr (.inr (.inr ⟨fun h => hall h.1, .inl rfl⟩))
  · refine .inl ⟨st.aRSC.GetPosition, ?_⟩
    rw [ParsedResource.write, checkOffset, if_neg hpos]
    rfl

/-- **The resources**, by induction over them; the stream stays at its end. -/
theorem foldlM_write_cases (rs : List ParsedResource) : ∀ {st : Progress} {file : Bytes}, st.aRSC = .atEnd file →
    (∃ n, rs.foldlM (ParsedResource.write conv symbianV6hack) st = .error (.offset n)) ∨
    (AllSafe conv symbianV6hack rs ∧ ((∃ st', rs.foldlM (ParsedResource.write conv symbianV6hack) st = .ok st') ∨
      rs.foldlM (ParsedResource.write conv symbianV6hack) st = .error (.exits 1))) ∨
    (¬ AllSafe conv symbianV6hack rs ∧ Asserts (rs.foldlM (ParsedResource.write conv symbianV6hack) st)) := by
  induction rs with
  | nil => exact fun _ => .inr (.inl ⟨trivial, .inl ⟨_, rfl⟩⟩)
  | cons r rs ih =>
    intro st file hst
    rw [List.foldlM_cons]
    rcases @write_cases conv symbianV6hack r st file hst with ⟨n, hn⟩ | ⟨hsafe, hends, st', file', hok, hst'⟩ |
      ⟨hsafe, ⟨v, hv, hend⟩, herror⟩ | ⟨hsafe, hasserts⟩
    · rw [hn]
      exact .inl ⟨n, rfl⟩
    · rw [hok, run_ok_bind]
      rcases ih hst' with hoffset | ⟨hall, hrun⟩ | ⟨hall, hrun⟩
      · exact .inl hoffset
      · exact .inr (.inl ⟨⟨hsafe, fun _ => hall⟩, hrun⟩)
      · exact .inr (.inr ⟨fun h => hall (h.2 hends), hrun⟩)
    · rw [herror]
      exact .inr (.inl ⟨⟨hsafe, fun hnone => absurd hend (hnone v hv)⟩, .inr rfl⟩)
    · exact .inr (.inr ⟨fun h => hsafe h.1, hasserts.bind⟩)

theorem overwriteLinks_cases (names : List (String × UInt64)) (links : List LinkItem) : ∀ os : RCBinaryStream,
    (∃ os', links.foldlM (OverwriteLink names) os = .ok os') ∨
      links.foldlM (OverwriteLink names) os = .error (.exits 1) := by
  induction links with
  | nil => exact fun os => .inl ⟨os, rfl⟩
  | cons link links ih =>
    intro os
    rw [List.foldlM_cons]
    rcases overwriteLink_cases names os.file os.pos link.iResourceName link.type link.iStreamPosition with
      ⟨-, herror⟩ | ⟨-, pos', hok⟩
    · exact .inr (congrArg (· >>= fun os => links.foldlM (OverwriteLink names) os) herror)
    · have hlink : OverwriteLink names os link = .ok ⟨writeAt os.file link.iStreamPosition
          (linkBytes names link.iResourceName link.type), pos'⟩ := hok
      rw [hlink, run_ok_bind]
      exact ih _

theorem overwriteLinks_not_asserts {α : Type} (names : List (String × UInt64)) (links : List LinkItem)
    (os : RCBinaryStream) (f : RCBinaryStream → α) :
    ¬ Asserts (links.foldlM (OverwriteLink names) os >>= fun os => (.ok (f os) : Run α)) := by
  rcases overwriteLinks_cases names links os with ⟨os', hos⟩ | herror
  · rw [hos]
    exact not_asserts_ok _
  · rw [herror]
    exact not_asserts_exits

/-- Where the values of every resource are streamed out, the file is written from their items. -/
theorem writeResourceFile_of_values (aThirdUidIsOffset : Bool) (aRSC : RCBinaryStream) (g : ParsedText)
    (items : ParsedResource → List Item)
    (hvalues : ∀ r ∈ g.Index, r.iRIA.values.forM (StreamedValue.stream conv) = .ok ())
    (hitems : ∀ r ∈ g.Index, r.iRIA.StreamOut conv = .ok (items r)) :
    g.WriteResourceFile conv symbianV6hack aThirdUidIsOffset aRSC =
      WriteResourceFile compressText symbianV6hack aThirdUidIsOffset aRSC
        ⟨g.CurrentId, g.ResourceNameIds, g.Index.map fun r => ⟨r.header (items r), 0⟩⟩ := by
  have hrounds : ∀ rs : List ParsedResource, (∀ r ∈ rs, r ∈ g.Index) → ∀ st,
      rs.foldlM (ParsedResource.write conv symbianV6hack) st =
        (rs.map fun r => ⟨r.header (items r), 0⟩).foldlM (writeResource compressText symbianV6hack) st := by
    intro rs
    induction rs with
    | nil => exact fun _ _ => rfl
    | cons r rs ih =>
      intro hmem st
      have hr := hmem r (List.mem_cons_self ..)
      have hround : r.write conv symbianV6hack st =
          writeResource compressText symbianV6hack st ⟨r.header (items r), 0⟩ := by
        by_cases hpos : st.aRSC.GetPosition ≤ 0xFFFF
        · rw [ParsedResource.write, checkOffset, if_pos hpos, run_ok_bind, hvalues r hr, run_ok_bind, hitems r hr,
            run_ok_bind]
        · rw [ParsedResource.write, writeResource, checkOffset, if_neg hpos, run_error_bind, run_error_bind]
      rw [List.map_cons, List.foldlM_cons, List.foldlM_cons, hround]
      refine congrArg (writeResource compressText symbianV6hack st ⟨r.header (items r), 0⟩ >>= ·) (funext ?_)
      exact ih fun r' hr' => hmem r' (List.mem_cons_of_mem _ hr')
  have hspace : ∀ os, makeSpace symbianV6hack os (g.Index.map fun r => ⟨r.header [], 0⟩) =
      makeSpace symbianV6hack os (g.Index.map fun r => ⟨r.header (items r), 0⟩) := by
    intro os
    unfold makeSpace bitArrayOf
    rw [List.map_map, List.map_map]
    rfl
  unfold ParsedText.WriteResourceFile Rcomp.WriteResourceFile WriteBinaryResourceData
  dsimp only
  rw [hspace, hrounds g.Index fun r hr => hr]

/-- **The resource file**: an assertion fails exactly where a resource is not safe, as long as the offsets are. -/
theorem writeResourceFile_asserts (aThirdUidIsOffset : Bool) (file : Bytes) (g : ParsedText)
    (hbelow : ∀ n, g.WriteResourceFile conv symbianV6hack aThirdUidIsOffset (.atEnd file) ≠ .error (.offset n)) :
    Asserts (g.WriteResourceFile conv symbianV6hack aThirdUidIsOffset (.atEnd file)) ↔
      ¬ AllSafe conv symbianV6hack g.Index := by
  obtain ⟨space, hspace, -⟩ := write_makeSpace symbianV6hack (file ++ flagBytes symbianV6hack aThirdUidIsOffset)
    (g.Index.map fun r => ⟨r.header [], 0⟩)
  unfold ParsedText.WriteResourceFile at hbelow ⊢
  simp only [write_atEnd, hspace] at hbelow ⊢
  rcases @foldlM_write_cases conv symbianV6hack g.Index
    ⟨.atEnd (file ++ flagBytes symbianV6hack aThirdUidIsOffset ++ space), [], [], 0⟩ _ rfl with ⟨n, hn⟩ |
    ⟨hall, ⟨st, hst⟩ | herror⟩ | ⟨hall, hasserts⟩
  · rw [hn] at hbelow
    exact absurd rfl (hbelow n)
  · rw [hst] at hbelow ⊢
    simp only [run_ok_bind] at hbelow ⊢
    refine iff_of_false ?_ (not_not.mpr hall)
    by_cases hpos : st.aRSC.GetPosition ≤ 0xFFFF
    · rw [checkOffset, if_pos hpos, run_ok_bind]
      exact overwriteLinks_not_asserts g.ResourceNameIds st.links _ _
    · rw [checkOffset, if_neg hpos] at hbelow
      exact absurd rfl (hbelow _)
  · rw [herror]
    exact iff_of_false not_asserts_exits (not_not.mpr hall)
  · exact iff_of_true hasserts.bind hall

end

/-! ### A source text -/

section
variable (conversions : CharacterSet → Conversions) (memory : ℕ → ℕ → UInt64) (symbianV6hack aThirdUidIsOffset : Bool)
variable (file : Bytes) (text : List TextStatement)

/-- No offset of the resource file is more than 0xFFFF. -/
def Below64K : Prop := ∀ g n, parseText conversions memory text = .ok g →
  g.WriteResourceFile (conversions g.SourceCharacterSet) symbianV6hack aThirdUidIsOffset (.atEnd file) ≠
    .error (.offset n)

/-- Writing the resource file of a text that parses comes to no assertion that fails. -/
def NeverAsserts : Prop := ∀ g, parseText conversions memory text = .ok g →
  ¬ Asserts (g.WriteResourceFile (conversions g.SourceCharacterSet) symbianV6hack aThirdUidIsOffset (.atEnd file))

/-- **No assertion fails exactly when every resource is safe**: its values are what their types assert, wherever they
come from, and its lengths stay below 0x8000. -/
theorem neverAsserts_iff (hbelow : Below64K conversions memory symbianV6hack aThirdUidIsOffset file text) :
    NeverAsserts conversions memory symbianV6hack aThirdUidIsOffset file text ↔
      ∀ g, parseText conversions memory text = .ok g →
        AllSafe (conversions g.SourceCharacterSet) symbianV6hack g.Index := by
  have hresource : ∀ g, parseText conversions memory text = .ok g →
      (¬ Asserts (g.WriteResourceFile (conversions g.SourceCharacterSet) symbianV6hack aThirdUidIsOffset
          (.atEnd file)) ↔
        AllSafe (conversions g.SourceCharacterSet) symbianV6hack g.Index) := by
    intro g hg
    rw [writeResourceFile_asserts aThirdUidIsOffset file g fun n => hbelow g n hg, not_not]
  constructor
  · intro hnever g hg
    exact (hresource g hg).mp (hnever g hg)
  · intro hsafe g hg
    exact (hresource g hg).mpr (hsafe g hg)

end

/-- `STRUCT NOTE { LTEXT8 title; BUF8 data; }` and a resource with these items. -/
def noteText (body : List BodyItem) : List TextStatement :=
  [.struct_statement "NOTE" none [.simple .L_LTEXT8 none "title" none none, .simple .L_BUF8 none "data" none none],
    .resource_statement "NOTE" "r_note" false body]

/-- What is parsed of it. -/
def noteParsed (title data : String) (dataSet : Bool) : ParsedText :=
  { ParsedText.start with
    SHA := [⟨"NOTE", [.simple ⟨"title", .L_LTEXT8, "", ""⟩, .simple ⟨"data", .L_BUF8, "", ""⟩], none, by decide⟩]
    ResourceNameIds := [("r_note", 1)]
    Index := [⟨"r_note", false, .mk none [.simple ⟨"title", .L_LTEXT8, "", ""⟩ title true 0,
      .simple ⟨"data", .L_BUF8, "", ""⟩ data dataSet 0], 1, false⟩]
    CurrentId := 1 }

theorem noteText_parsed : parseText (fun _ => directConversions) (fun _ _ => 0)
    (noteText [.simple_initialiser "title" "Hi", .simple_initialiser "data" "x"]) =
      .ok (noteParsed "Hi" "x" true) := rfl

theorem noteText_parsed_without : parseText (fun _ => directConversions) (fun _ _ => 0)
    (noteText [.simple_initialiser "title" "Hi"]) = .ok (noteParsed "Hi" "" false) := rfl

/-- With the two values the file is written. -/
theorem neverAsserts_iff_note :
    NeverAsserts (fun _ => directConversions) (fun _ _ => 0) false false []
      (noteText [.simple_initialiser "title" "Hi", .simple_initialiser "data" "x"]) ↔
    ∀ g, parseText (fun _ => directConversions) (fun _ _ => 0)
        (noteText [.simple_initialiser "title" "Hi", .simple_initialiser "data" "x"]) = .ok g →
      AllSafe directConversions false g.Index := by
  refine neverAsserts_iff (fun _ => directConversions) (fun _ _ => 0) false false [] _ fun g n hg h => ?_
  obtain rfl := Except.ok.inj (hg.symm.trans noteText_parsed)
  have hok : ((noteParsed "Hi" "x" true).WriteResourceFile directConversions false false (.atEnd [])).isOk = true := by
    decide +kernel
  rw [h] at hok
  cases hok

/-- Without the data, for which there is no default, `GetBuffer` asserts that the string is not empty. -/
theorem noteText_asserts :
    Below64K (fun _ => directConversions) (fun _ _ => 0) false false [] (noteText [.simple_initialiser "title" "Hi"]) ∧
    ¬ NeverAsserts (fun _ => directConversions) (fun _ _ => 0) false false []
      (noteText [.simple_initialiser "title" "Hi"]) := by
  have hasserts : (noteParsed "Hi" "" false).WriteResourceFile directConversions false false (.atEnd []) =
      .error .assertion := by decide +kernel
  constructor
  · intro g n hg h
    obtain rfl := Except.ok.inj (hg.symm.trans noteText_parsed_without)
    cases hasserts.symm.trans h
  · intro hnever
    exact hnever _ noteText_parsed_without (.inl hasserts)

end GnuPoc.Rcomp
