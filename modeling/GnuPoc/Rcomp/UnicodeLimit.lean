import GnuPoc.Rcomp.UnicodeCodec
import GnuPoc.Rcomp.UnicodeCost

/-!
# GnuPoc.Rcomp.UnicodeLimit — compressing within the size of the string (`unicode_compressor.cpp`, `rcostrm.cpp`)

`StreamOutCompressingIfReducesSize` gives `CompressUnicode` no more room than the string itself takes.  When that
is full the characters that are left are not read, and `CompressUnicode` ends the program.
-/

namespace GnuPoc.Rcomp

open GnuPoc.Lib

/-- `StreamOutCompressingIfReducesSize` with the limit that it sets. -/
def StreamOutWithinLimit (aStream : ResourceDataStream) (words : List UInt16) : Run ResourceDataStream := do
  let uncompressedUnicodeSizeInBytes := 2 * words.length
  let (buffer, compressedUnicodeSizeInBytes) ← CompressUnicode uncompressedUnicodeSizeInBytes words
  if compressedUnicodeSizeInBytes < uncompressedUnicodeSizeInBytes then
    .ok ((aStream.StartOfCompressedUnicodeRun words).StreamIn
      (buffer.take compressedUnicodeSizeInBytes)).EndOfCompressedUnicodeRun
  else if 0 < uncompressedUnicodeSizeInBytes then .ok (aStream.TwoByteAlignmentPoint.StreamIn (wordBytes words))
  else .ok aStream

namespace TUnicodeCompressor

/-! ### Counted output -/

/-- The bytes written are counted, and no more than the limit. -/
structure Counted (limit : ℕ) (c : TUnicodeCompressor) : Prop where
  length : c.iOutput.length = c.iCompressedBytes
  le : c.iCompressedBytes ≤ limit

variable {limit : ℕ} {c : TUnicodeCompressor}

theorem flush_counted (n : ℕ) : ∀ {c : TUnicodeCompressor}, c.Counted limit →
    (flush limit n c).Counted limit ∧
      (c.iOutputBuffer.size = n → (flush limit n c).iCompressedBytes = min limit (c.iCompressedBytes + n)) := by
  induction n with
  | zero =>
    intro c hc
    exact ⟨hc, fun _ => (min_eq_right hc.le).symm⟩
  | succ n ih =>
    intro c hc
    unfold flush
    by_cases hlimit : c.iCompressedBytes < limit
    · rw [if_pos hlimit]
      have hc' : Counted limit { c with
          iOutput := c.iOutput ++ [c.iOutputBuffer.get 0]
          iCompressedBytes := c.iCompressedBytes + 1
          iOutputBuffer := c.iOutputBuffer.pop } :=
        ⟨by rw [List.length_append, hc.length]; rfl, hlimit⟩
      obtain ⟨hcounted, hmin⟩ := ih hc'
      refine ⟨hcounted, fun hsize => ?_⟩
      rw [hmin (by rw [RingBuffer.pop, hsize]; rfl)]
      simp only [Nat.add_assoc, Nat.add_comm 1 n]
    · rw [if_neg hlimit]
      have hle := hc.le
      exact ⟨hc, fun _ => by omega⟩

theorem writeRunL_counted {c c' : TUnicodeCompressor} (hc : c.Counted limit)
    (hbase : c.iActiveWindowBase = c.reader.base) (h : c.WriteRunL limit = .ok c') : c'.Counted limit := by
  obtain ⟨c₁, hrun, h⟩ := bind_eq_ok.mp h
  obtain rfl := Except.ok.inj h
  have hspends := writeRun_spends hbase hrun
  have hc₁ : c₁.Counted limit :=
    ⟨by rw [hspends.output, hspends.compressed, hc.length], by rw [hspends.compressed]; exact hc.le⟩
  exact (flush_counted _ hc₁).1

theorem flushInput_counted (n : ℕ) : ∀ {c c' : TUnicodeCompressor}, c.Safe limit →
    c.iInputBuffer.size ≤ 4 → c.Counted limit → flushInput limit n c = .ok c' → c'.Counted limit := by
  induction n with
  | zero =>
    intro c c' _ _ hc h
    unfold flushInput at h
    split at h
    case isTrue => cases h
    case isFalse =>
      obtain rfl := Except.ok.inj h
      exact hc
  | succ n ih =>
    intro c c' hsafe hfour hc h
    unfold flushInput at h
    split at h
    case isTrue hmore =>
      obtain ⟨c₁, hrun, h⟩ := bind_eq_ok.mp h
      obtain ⟨c₂, hok, hsafe', hless⟩ := writeRunL_safe hsafe hmore.2 hfour
      obtain rfl := Except.ok.inj (hrun.symm.trans hok)
      have hlt := hless hmore.1
      exact ih hsafe' (by omega) (writeRunL_counted hc hsafe.ready.base hrun) h
    case isFalse =>
      obtain rfl := Except.ok.inj h
      exact hc

/-! ### Runs under the limit -/

/-- A run with its flush from an idle compressor: the limit is not exceeded, or it is reached. -/
theorem writeRunL_limit (hidle : c.Idle) (hle : c.iCompressedBytes ≤ limit)
    (hpos : 0 < c.iInputBuffer.size) (hfour : c.iInputBuffer.size ≤ 4) :
    ∃ c', c.WriteRunL limit = .ok c' ∧ c'.Counted limit ∧ c'.iUnicodeWords = c.iUnicodeWords ∧
      c'.iInputBuffer.toList = (c.reader.run c.iInputBuffer.toList).queue ∧
      c'.iInputBuffer.size < c.iInputBuffer.size ∧ c'.Safe limit ∧
      c'.iCompressedBytes = min limit (c.iCompressedBytes + (c.reader.run c.iInputBuffer.toList).bytes) ∧
      (c.iCompressedBytes + (c.reader.run c.iInputBuffer.toList).bytes ≤ limit →
        c'.reader = (c.reader.run c.iInputBuffer.toList).reader ∧
        ∃ codes bytes, Advance c c' codes bytes ∧ c.pending = codes ++ c'.pending) := by
  obtain ⟨c₁, taken, bytes, hok, hstep, hne⟩ := writeRun_step hidle.ready hidle.empty hfour
  have hspends := writeRun_spends hidle.ready.base hok
  have hsize : c₁.iOutputBuffer.size = (c.reader.run c.iInputBuffer.toList).bytes := by
    rw [hspends.size, hidle.empty, Nat.zero_add]
  have hc : c.Counted limit := ⟨hidle.counted.symm, hle⟩
  have hc₁ : c₁.Counted limit :=
    ⟨by rw [hspends.output, hspends.compressed, hc.length], by rw [hspends.compressed]; exact hle⟩
  have hflushed := flush_flushed limit c₁.iOutputBuffer.size c₁ rfl
  obtain ⟨hcounted, hmin⟩ := flush_counted c₁.iOutputBuffer.size hc₁
  have hrunL : c.WriteRunL limit = .ok (c₁.FlushOutputBufferL limit) := by rw [WriteRunL, hok, run_ok_bind]
  refine ⟨c₁.FlushOutputBufferL limit, hrunL, hcounted, hflushed.words.trans hspends.words, ?_, ?_,
    ⟨hflushed.ready hstep.ready, hflushed.empty⟩, ?_, fun hroom => ⟨hflushed.reader.trans hspends.reader, ?_⟩⟩
  · rw [← hspends.queue]
    exact congrArg RingBuffer.toList hflushed.input
  · rw [FlushOutputBufferL, hflushed.input, hstep.taken]
    exact Nat.lt_add_of_pos_left (List.length_pos_of_ne_nil (hne hpos).1)
  · rw [FlushOutputBufferL, hmin rfl, hsize, hspends.compressed]
  · obtain ⟨c₂, codes, bytes', hok₂, hadvance, hpending, -, -, -⟩ := writeRunL_advance hidle hpos hfour
    set k := (c.reader.run c.iInputBuffer.toList).bytes
    -- with room for both, the two accounts of the run are of one state
    have hk : k = bytes'.length := by
      have hwide : c.WriteRunL (c.iOutput.length + bytes'.length + k) = .ok c₂ := hok₂ _ (Nat.le_add_right _ _)
      rw [WriteRunL, hok, run_ok_bind] at hwide
      have hc₁' : c₁.Counted (c.iOutput.length + bytes'.length + k) := by
        refine ⟨hc₁.length, ?_⟩
        rw [hspends.compressed, hidle.counted]
        omega
      have hmin' := (flush_counted c₁.iOutputBuffer.size hc₁').2 rfl
      have hcount := hadvance.idle.counted
      rw [← FlushOutputBufferL, Except.ok.inj hwide, hcount, hadvance.output, List.length_append, hsize,
        hspends.compressed, hidle.counted] at hmin'
      omega
    have hfits : c.iOutput.length + bytes'.length ≤ limit := by
      rw [← hidle.counted, ← hk]
      exact hroom
    have hsame := Except.ok.inj (hrunL.symm.trans (hok₂ limit hfits))
    rw [hsame]
    exact ⟨codes, bytes', hadvance, hpending⟩

/-- A round of the loop of `DoCompressL` from an idle compressor that has room. -/
theorem round_limit (hidle : c.Idle) (hlt : c.iCompressedBytes < limit) (h : c.iInputBuffer.size ≤ 3) (x : UInt16) :
    ∃ c', (if c.iInputBuffer.size + 1 = 4 then (c.readCharacter x).WriteRunL limit else .ok (c.readCharacter x)) = .ok c' ∧
      c'.Counted limit ∧ c'.iUnicodeWords = c.iUnicodeWords + 1 ∧ c'.iInputBuffer.size ≤ 3 ∧ c'.Safe limit ∧
      c'.iInputBuffer.toList = (c.reader.read c.iInputBuffer.toList x).queue ∧
      c'.iCompressedBytes = min limit (c.iCompressedBytes + (c.reader.read c.iInputBuffer.toList x).bytes) ∧
      (c.iCompressedBytes + (c.reader.read c.iInputBuffer.toList x).bytes ≤ limit →
        c'.reader = (c.reader.read c.iInputBuffer.toList x).reader ∧
        ∃ codes bytes, Advance c c' codes bytes ∧ c.pending ++ [x] = codes ++ c'.pending) := by
  have hidle' : (c.readCharacter x).Idle := ⟨hidle.ready.readCharacter x h, hidle.empty, hidle.counted⟩
  have hqueue := toList_readCharacter x h
  have hsize : (c.readCharacter x).iInputBuffer.size = c.iInputBuffer.size + 1 := rfl
  have hreader : (c.readCharacter x).reader = c.reader := rfl
  have hpending : (c.readCharacter x).pending = c.pending ++ [x] := by
    rw [pending, hqueue, List.map_append]
    rfl
  unfold Reader.read
  rw [RingBuffer.length_toList, ← hqueue]
  by_cases hfull : c.iInputBuffer.size + 1 = 4
  · obtain ⟨c', hok, hcounted, hwords, hinput, hless, hsafe, hmin, hroom⟩ :=
      writeRunL_limit hidle' hlt.le (by omega) (by omega)
    rw [if_pos hfull, if_pos hfull, ← hreader]
    refine ⟨c', hok, hcounted, hwords, by omega, hsafe, hinput, hmin, fun hle => ?_⟩
    obtain ⟨hreader', codes, bytes, hadvance, hsplit⟩ := hroom hle
    exact ⟨hreader', codes, bytes, ⟨hadvance.means, hadvance.output, hadvance.idle⟩, hpending ▸ hsplit⟩
  · rw [if_neg hfull, if_neg hfull]
    refine ⟨_, rfl, ⟨hidle.counted.symm, hlt.le⟩, rfl, by omega, ⟨hidle'.ready, .inl hidle.empty⟩, rfl, ?_, fun _ => ⟨rfl, ?_⟩⟩
    · exact (min_eq_right hlt.le).symm
    · exact ⟨[], [], ⟨.nil _, (List.append_nil _).symm, hidle'⟩, hpending.symm⟩

theorem readCharacters_full (h : c.iCompressedBytes = limit) (xs : List UInt16) :
    readCharacters limit xs c = .ok c := by
  cases xs with
  | nil => rfl
  | cons x xs => exact if_neg (by omega)

/-- **All characters are read exactly when those that leave the look-ahead before the last one is read cost less
than the room that is left.** -/
theorem readCharacters_limit (xs : List UInt16) : ∀ {c : TUnicodeCompressor}, c.Idle →
    c.iCompressedBytes ≤ limit → c.iInputBuffer.size ≤ 3 →
    ∃ c', readCharacters limit xs c = .ok c' ∧ c'.Counted limit ∧ c'.Safe limit ∧ c'.iInputBuffer.size ≤ 3 ∧
      c'.iUnicodeWords ≤ c.iUnicodeWords + xs.length ∧
      (c'.iUnicodeWords = c.iUnicodeWords + xs.length ↔
        xs = [] ∨ c.iCompressedBytes + c.reader.readCost c.iInputBuffer.toList xs.dropLast < limit) ∧
      (c'.iCompressedBytes = limit ∨ ∃ codes bytes, Advance c c' codes bytes ∧ c.pending ++ xs = codes ++ c'.pending) := by
  induction xs with
  | nil =>
    intro c hidle hle h
    refine ⟨c, rfl, ⟨hidle.counted.symm, hle⟩, ⟨hidle.ready, .inl hidle.empty⟩, h, le_rfl, ?_, .inr ?_⟩
    · exact ⟨fun _ => .inl rfl, fun _ => rfl⟩
    · exact ⟨[], [], ⟨.nil _, (List.append_nil _).symm, hidle⟩, List.append_nil _⟩
  | cons x xs ih =>
    intro c hidle hle h
    by_cases hlt : c.iCompressedBytes < limit
    swap
    · have hfull : c.iCompressedBytes = limit := by omega
      refine ⟨c, readCharacters_full hfull _, ⟨hidle.counted.symm, hle⟩, ⟨hidle.ready, .inl hidle.empty⟩, h,
        Nat.le_add_right _ _, ?_, .inl hfull⟩
      rw [List.length_cons]
      refine ⟨fun hwords => by omega, fun hcost => ?_⟩
      rcases hcost with hnil | hcost
      · cases hnil
      · omega
    rw [readCharacters_cons x xs hlt]
    obtain ⟨c₁, hok, hcounted, hwords, hsize, hsafe, hqueue, hmin, hroom⟩ := round_limit hidle hlt h x
    rw [hok, run_ok_bind]
    have hlast : xs = [] → c.iCompressedBytes + c.reader.readCost c.iInputBuffer.toList (x :: xs).dropLast < limit := by
      rintro rfl
      exact hlt
    have hcost : xs ≠ [] → c.reader.readCost c.iInputBuffer.toList (x :: xs).dropLast =
        (c.reader.read c.iInputBuffer.toList x).bytes +
          (c.reader.read c.iInputBuffer.toList x).reader.readCost c₁.iInputBuffer.toList xs.dropLast := by
      intro hne
      rw [List.dropLast_cons_of_ne_nil hne, hqueue]
      rfl
    set k := (c.reader.read c.iInputBuffer.toList x).bytes
    by_cases hfits : c.iCompressedBytes + k ≤ limit
    · obtain ⟨hreader, codes, bytes, hadvance, hsplit⟩ := hroom hfits
      obtain ⟨c', hok', hcounted', hsafe', hsize', hwords', hiff, hend⟩ := ih hadvance.idle hcounted.le hsize
      rw [hreader] at hiff
      rw [List.length_cons]
      refine ⟨c', hok', hcounted', hsafe', hsize', by omega, ?_, hend.imp_right ?_⟩
      · have hall : c'.iUnicodeWords = c.iUnicodeWords + (xs.length + 1) ↔
            c'.iUnicodeWords = c₁.iUnicodeWords + xs.length := by omega
        rw [hall, hiff]
        by_cases hnil : xs = []
        · exact ⟨fun _ => .inr (hlast hnil), fun _ => .inl hnil⟩
        · rw [hcost hnil, hmin]
          refine ⟨fun hless => .inr ?_, fun hless => .inr ?_⟩
          · have hless := hless.resolve_left hnil
            omega
          · have hless := hless.resolve_left (List.cons_ne_nil _ _)
            omega
      · rintro ⟨codes', bytes', hadvance', hsplit'⟩
        refine ⟨codes ++ codes', bytes ++ bytes', hadvance.trans hadvance', ?_⟩
        calc c.pending ++ x :: xs = c.pending ++ [x] ++ xs := (List.append_cons _ x xs)
          _ = codes ++ (c₁.pending ++ xs) := by rw [hsplit, List.append_assoc]
          _ = codes ++ codes' ++ c'.pending := by rw [hsplit', List.append_assoc]
    · have hfull : c₁.iCompressedBytes = limit := by omega
      rw [List.length_cons]
      refine ⟨c₁, readCharacters_full hfull xs, hcounted, hsafe, hsize, by omega, ?_, .inl hfull⟩
      by_cases hnil : xs = []
      · exact ⟨fun _ => .inr (hlast hnil), fun _ => by rw [hwords, hnil, List.length_nil, Nat.zero_add]⟩
      · have hpos := List.length_pos_of_ne_nil hnil
        rw [hcost hnil]
        refine ⟨fun hall => by omega, fun hless => ?_⟩
        have hless := hless.resolve_left (List.cons_ne_nil _ _)
        omega

theorem flushInput_full (h : c.iCompressedBytes = limit) (n : ℕ) : flushInput limit n c = .ok c := by
  cases n with
  | zero => exact if_neg (by omega)
  | succ n => exact if_neg (by omega)

theorem flushInput_limit (n : ℕ) : ∀ {c : TUnicodeCompressor}, c.Idle → c.iCompressedBytes ≤ limit →
    c.iInputBuffer.size ≤ n → c.iInputBuffer.size ≤ 4 →
    ∃ c', flushInput limit n c = .ok c' ∧ c'.iUnicodeWords = c.iUnicodeWords ∧
      (c'.iCompressedBytes = limit ∨ c'.iInputBuffer.size = 0 ∧ ∃ bytes, Advance c c' c.pending bytes) := by
  induction n with
  | zero =>
    intro c hidle hle hsize _
    have hnone : c.iInputBuffer.size = 0 := by omega
    refine ⟨c, if_neg (by omega), rfl, .inr ⟨hnone, [], ?_, (List.append_nil _).symm, hidle⟩⟩
    rw [pending_nil hnone]
    exact .nil _
  | succ n ih =>
    intro c hidle hle hsize hfour
    unfold flushInput
    by_cases hmore : 0 < c.iInputBuffer.size ∧ c.iCompressedBytes < limit
    · obtain ⟨c₁, hok, hcounted, hwords, -, hless, -, hmin, hroom⟩ := writeRunL_limit hidle hle hmore.1 hfour
      rw [if_pos hmore, hok, run_ok_bind]
      by_cases hfits : c.iCompressedBytes + (c.reader.run c.iInputBuffer.toList).bytes ≤ limit
      · obtain ⟨-, codes, bytes, hadvance, hsplit⟩ := hroom hfits
        obtain ⟨c', hok', hwords', hend⟩ := ih hadvance.idle hcounted.le (by omega) (by omega)
        refine ⟨c', hok', hwords'.trans hwords, hend.imp_right ?_⟩
        rintro ⟨hempty, bytes', hadvance'⟩
        rw [hsplit]
        exact ⟨hempty, bytes ++ bytes', hadvance.trans hadvance'⟩
      · have hfull : c₁.iCompressedBytes = limit := by omega
        exact ⟨c₁, flushInput_full hfull n, hwords, .inl hfull⟩
    · rw [if_neg hmore]
      refine ⟨c, rfl, rfl, ?_⟩
      by_cases hnone : c.iInputBuffer.size = 0
      · refine .inr ⟨hnone, [], ?_, (List.append_nil _).symm, hidle⟩
        rw [pending_nil hnone]
        exact .nil _
      · exact .inl (by omega)

/-- `DoCompressL` from the start. -/
theorem doCompressL_limit (limit : ℕ) (words : List UInt16) :
    ∃ c, reset.DoCompressL limit words = .ok c ∧ c.Ready ∧ c.iInputBuffer.size ≤ 3 ∧ c.Counted limit ∧
      (c.iUnicodeWords = words.length ↔ words = [] ∨ Reader.start.readCost [] words.dropLast < limit) ∧
      (c.iCompressedBytes < limit → c.iInputBuffer.size = 0 ∧ c.iOutputBuffer.size = 0 ∧
        decode .start c.iOutput = some words) := by
  have hidle : reset.Idle := ⟨reset_ready, rfl, rfl⟩
  have hstart : { reset with iCompressedBytes := 0, iUnicodeWords := 0, iOutput := [] }.FlushOutputBufferL limit =
      reset := rfl
  obtain ⟨c₁, hok₁, hcounted₁, hsafe₁, hsize₁, -, hiff, hend₁⟩ :=
    readCharacters_limit words hidle (Nat.zero_le limit) (Nat.zero_le 3)
  obtain ⟨c₂, hok₂, hready₂, hsize₂⟩ :=
    flushInput_safe limit c₁.iInputBuffer.size c₁ hsafe₁ le_rfl (by omega)
  have hcounted₂ := flushInput_counted _ hsafe₁ (by omega) hcounted₁ hok₂
  have hread : reset.DoCompressL limit words = .ok c₂ := by
    unfold DoCompressL
    rw [hstart]
    simp only [hok₁, run_ok_bind]
    exact hok₂
  have hend : c₂.iUnicodeWords = c₁.iUnicodeWords ∧ (c₂.iCompressedBytes < limit →
      c₂.iInputBuffer.size = 0 ∧ c₂.iOutputBuffer.size = 0 ∧ decode .start c₂.iOutput = some words) := by
    rcases hend₁ with hfull | ⟨codes, bytes, hadvance, hsplit⟩
    · obtain rfl := Except.ok.inj ((flushInput_full hfull _).symm.trans hok₂)
      exact ⟨rfl, fun hlt => absurd hfull hlt.ne⟩
    · obtain ⟨c₂', hok₂', hwords, hend₂⟩ := flushInput_limit _ hadvance.idle hcounted₁.le le_rfl (by omega)
      obtain rfl := Except.ok.inj (hok₂.symm.trans hok₂')
      refine ⟨hwords, fun hlt => ?_⟩
      obtain ⟨hempty, bytes', hadvance'⟩ := hend₂.resolve_left hlt.ne
      have hboth := hadvance.trans hadvance'
      rw [← hsplit] at hboth
      have hout : c₂.iOutput = bytes ++ bytes' := hboth.output
      refine ⟨hempty, hadvance'.idle.empty, ?_⟩
      rw [hout]
      exact hboth.means.decode_eq
  refine ⟨c₂, hread, hready₂, by omega, hcounted₂, ?_, hend.2⟩
  have hzero : reset.iUnicodeWords + words.length = words.length := Nat.zero_add _
  have hzero' : reset.iCompressedBytes + reset.reader.readCost reset.iInputBuffer.toList words.dropLast =
      Reader.start.readCost [] words.dropLast := Nat.zero_add _
  rwa [hzero, hzero', ← hend.1] at hiff

theorem doCompressL_flush (limit : ℕ) {c : TUnicodeCompressor} (hready : c.Ready) (h : c.iInputBuffer.size ≤ 3) :
    ∃ c', c.DoCompressL limit [] = .ok c' ∧ c'.Counted limit := by
  obtain ⟨c', hok, -, -⟩ := doCompressL_ready limit [] hready h
  refine ⟨c', hok, ?_⟩
  set start : TUnicodeCompressor := { c with iCompressedBytes := 0, iUnicodeWords := 0, iOutput := [] } with hstart
  have hflushed := flush_flushed limit start.iOutputBuffer.size start rfl
  have hready' : start.Ready := ⟨hready.base, hready.windows, hready.proper⟩
  have hcounted : start.Counted limit := ⟨rfl, Nat.zero_le _⟩
  unfold DoCompressL at hok
  rw [← hstart] at hok
  have hsize : (start.FlushOutputBufferL limit).iInputBuffer.size ≤ 4 := by
    rw [FlushOutputBufferL, hflushed.input]
    exact Nat.le_succ_of_le h
  exact flushInput_counted _ ⟨hflushed.ready hready', hflushed.empty⟩ hsize (flush_counted _ hcounted).1 hok

end TUnicodeCompressor

/-! ### The limit of the string -/

/-- The string is compressed within its own size: `CompressUnicode` comes back, writes no further than that, and
where it reports less all characters have been read, nothing waits to be written, and the bytes are the string;
what is streamed is that compression or the string itself. -/
def CompressesWithinSize (words : List UInt16) : Prop :=
  ∃ buffer length, CompressUnicode (2 * words.length) words = .ok (buffer, length) ∧
    buffer.length ≤ 2 * words.length ∧
    (length < 2 * words.length → ∃ c c', TUnicodeCompressor.reset.DoCompressL (2 * words.length) words = .ok c ∧
      c.DoCompressL (2 * words.length) [] = .ok c' ∧ c.iUnicodeWords = words.length ∧
      c'.iInputBuffer.size = 0 ∧ c'.iOutputBuffer.size = 0 ∧ buffer.length = length ∧
      decode .start buffer = some words) ∧
    ∀ s : ResourceDataStream, StreamOutWithinLimit s words = .ok (
      if length < 2 * words.length then
        ((s.StartOfCompressedUnicodeRun words).StreamIn buffer).EndOfCompressedUnicodeRun
      else if words = [] then s
      else s.TwoByteAlignmentPoint.StreamIn (wordBytes words))

/-- **A string is compressed within its size exactly when it has no characters or those that leave the look-ahead of
four before the last one is read cost fewer bytes than two for each character.** -/
theorem compressUnicode_within_iff (words : List UInt16) : CompressesWithinSize words ↔
    words = [] ∨ Reader.start.readCost [] words.dropLast < 2 * words.length := by
  obtain ⟨c, hok, hready, hsize, hcounted, hiff, hdone⟩ :=
    TUnicodeCompressor.doCompressL_limit (2 * words.length) words
  obtain ⟨c', hok', hcounted'⟩ := TUnicodeCompressor.doCompressL_flush (2 * words.length) hready hsize
  rw [← hiff]
  have hcall : CompressUnicode (2 * words.length) words =
      if c.iUnicodeWords ≠ words.length then .error (.exits 1)
      else .ok (c'.iOutput ++ c.iOutput.drop c'.iOutput.length, c.iCompressedBytes + c'.iCompressedBytes) := by
    unfold CompressUnicode
    rw [hok, run_ok_bind, hok', run_ok_bind]
  constructor
  · rintro ⟨buffer, length, h, -⟩
    by_contra hwords
    rw [hcall, if_pos hwords] at h
    cases h
  · intro hwords
    rw [if_neg (not_not.mpr hwords)] at hcall
    have hlen := hcounted.length
    have hle := hcounted.le
    have hlen' := hcounted'.length
    have hle' := hcounted'.le
    set buffer := c'.iOutput ++ c.iOutput.drop c'.iOutput.length with hbuffer
    have hless : c.iCompressedBytes + c'.iCompressedBytes < 2 * words.length → c'.iInputBuffer.size = 0 ∧
        c'.iOutputBuffer.size = 0 ∧ buffer.length = c.iCompressedBytes + c'.iCompressedBytes ∧
        decode .start buffer = some words := by
      intro hlt
      obtain ⟨hinput, hempty, hdecode⟩ := hdone (by omega)
      rw [TUnicodeCompressor.doCompressL_nil _ hempty hinput] at hok'
      obtain rfl := Except.ok.inj hok'
      exact ⟨hinput, hempty, hlen, hdecode⟩
    refine ⟨buffer, _, hcall, ?_, fun hlt => ?_, fun s => ?_⟩
    · rw [hbuffer, List.length_append, List.length_drop]
      omega
    · obtain ⟨hinput, hempty, hlength, hdecode⟩ := hless hlt
      exact ⟨c, c', hok, hok', hwords, hinput, hempty, hlength, hdecode⟩
    · unfold StreamOutWithinLimit
      simp only [hcall, run_ok_bind]
      by_cases hlt : c.iCompressedBytes + c'.iCompressedBytes < 2 * words.length
      · rw [if_pos hlt, if_pos hlt, ← (hless hlt).2.2.1, List.take_length]
      · rw [if_neg hlt, if_neg hlt]
        by_cases hnil : words = []
        · rw [if_pos hnil, if_neg (by rw [hnil]; exact lt_irrefl 0)]
        · have hpos := List.length_pos_of_ne_nil hnil
          rw [if_neg hnil, if_pos (by omega)]

/-- Han and private-use characters in turn, three bytes each: eight of them fill the room for twelve before the
last one is read. -/
theorem compressUnicode_panics : ¬CompressesWithinSize
    [0x3400, 0xE000, 0x3400, 0xE000, 0x3400, 0xE000, 0x3400, 0xE000, 0x3400, 0xE000, 0x3400, 0xE000] := by
  rintro ⟨buffer, length, h, -⟩
  have hpanic : CompressUnicode 24
      [0x3400, 0xE000, 0x3400, 0xE000, 0x3400, 0xE000, 0x3400, 0xE000, 0x3400, 0xE000, 0x3400, 0xE000] =
      .error (.exits 1) := by decide +kernel
  cases hpanic.symm.trans h

end GnuPoc.Rcomp
