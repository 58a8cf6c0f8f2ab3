import GnuPoc.Rcomp.UnicodeRun

/-!
# GnuPoc.Rcomp.UnicodeCodec — compressed characters mean themselves

The runs of a compression, one after the other.  With room in the output nothing stays in the queues between
two runs but characters, and the limit makes no difference.
-/

namespace GnuPoc.Rcomp

open GnuPoc.Lib

namespace TUnicodeCompressor

/-! ### The flush -/

/-- What `flush` leaves: `n` bytes of the queue have gone to the output. -/
structure Flushed (limit : ℕ) (c c' : TUnicodeCompressor) : Prop where
  reader : c'.reader = c.reader
  base : c'.iActiveWindowBase = c.iActiveWindowBase
  input : c'.iInputBuffer = c.iInputBuffer
  words : c'.iUnicodeWords = c.iUnicodeWords
  empty : c'.iOutputBuffer.size = 0 ∨ limit ≤ c'.iCompressedBytes

theorem Flushed.ready {limit : ℕ} {c c' : TUnicodeCompressor} (h : Flushed limit c c') (hready : c.Ready) : c'.Ready where
  base := by rw [h.base, h.reader, hready.base]
  windows i := by
    have hwindow : c'.iDynamicWindow i = c.iDynamicWindow i := congrArg (fun s => s.iDynamicWindow i) h.reader
    rw [hwindow]
    exact hready.windows i
  proper := by
    rw [h.input]
    exact hready.proper

theorem flush_flushed (limit n : ℕ) : ∀ c : TUnicodeCompressor, c.iOutputBuffer.size = n →
    Flushed limit c (flush limit n c) := by
  induction n with
  | zero => exact fun c h => ⟨rfl, rfl, rfl, rfl, .inl h⟩
  | succ n ih =>
    intro c h
    unfold flush
    by_cases hlimit : c.iCompressedBytes < limit
    · rw [if_pos hlimit]
      have hpop : c.iOutputBuffer.pop.size = n := by
        rw [RingBuffer.pop, h]
        rfl
      obtain ⟨hreader, hbase, hinput, hwords, hempty⟩ := ih { c with
        iOutput := c.iOutput ++ [c.iOutputBuffer.get 0]
        iCompressedBytes := c.iCompressedBytes + 1
        iOutputBuffer := c.iOutputBuffer.pop } hpop
      exact ⟨hreader, hbase, hinput, hwords, hempty⟩
    · rw [if_neg hlimit]
      exact ⟨rfl, rfl, rfl, rfl, .inr (not_lt.mp hlimit)⟩

/-- With room for all of them the bytes of the queue are written, whatever the limit. -/
theorem flush_all (n : ℕ) : ∀ c : TUnicodeCompressor, c.iOutputBuffer.size = n →
    ∃ buffer, buffer.size = 0 ∧ ∀ limit, c.iCompressedBytes + n ≤ limit → flush limit n c = { c with
      iOutput := c.iOutput ++ c.iOutputBuffer.toList
      iCompressedBytes := c.iCompressedBytes + n
      iOutputBuffer := buffer } := by
  induction n with
  | zero =>
    intro c h
    refine ⟨c.iOutputBuffer, h, fun limit _ => ?_⟩
    rw [flush, RingBuffer.toList_of_size_eq_zero h, List.append_nil]
    rfl
  | succ n ih =>
    intro c h
    have hpop : c.iOutputBuffer.pop.size = n := by
      rw [RingBuffer.pop, h]
      rfl
    obtain ⟨buffer, hbuffer, hall⟩ := ih { c with
      iOutput := c.iOutput ++ [c.iOutputBuffer.get 0]
      iCompressedBytes := c.iCompressedBytes + 1
      iOutputBuffer := c.iOutputBuffer.pop } hpop
    refine ⟨buffer, hbuffer, fun limit hlimit => ?_⟩
    rw [flush, if_pos (by omega), hall limit (by simp only; omega),
      RingBuffer.toList_pop (r := c.iOutputBuffer) (by omega)]
    simp only [List.append_assoc, List.singleton_append, Nat.add_assoc, Nat.add_comm 1 n]

/-! ### Any limit -/

/-- Between two runs, when the limit is not reached the queue of bytes is empty. -/
structure Safe (limit : ℕ) (c : TUnicodeCompressor) : Prop where
  ready : c.Ready
  empty : c.iOutputBuffer.size = 0 ∨ limit ≤ c.iCompressedBytes

variable {c : TUnicodeCompressor}

theorem writeRunL_safe {limit : ℕ} (hsafe : c.Safe limit) (hlimit : c.iCompressedBytes < limit)
    (hfour : c.iInputBuffer.size ≤ 4) :
    ∃ c', c.WriteRunL limit = .ok c' ∧ c'.Safe limit ∧
      (0 < c.iInputBuffer.size → c'.iInputBuffer.size < c.iInputBuffer.size) := by
  obtain ⟨c', taken, bytes, hok, hstep, hne⟩ := writeRun_step hsafe.ready (hsafe.empty.resolve_right (by omega)) hfour
  have hflushed := flush_flushed limit c'.iOutputBuffer.size c' rfl
  refine ⟨c'.FlushOutputBufferL limit, by rw [WriteRunL, hok, run_ok_bind],
    ⟨hflushed.ready hstep.ready, hflushed.empty⟩, fun hpos => ?_⟩
  rw [FlushOutputBufferL, hflushed.input, hstep.taken]
  exact Nat.lt_add_of_pos_left (List.length_pos_of_ne_nil (hne hpos).1)

theorem flushInput_safe (limit n : ℕ) : ∀ c : TUnicodeCompressor, c.Safe limit → c.iInputBuffer.size ≤ n →
    c.iInputBuffer.size ≤ 4 → ∃ c', flushInput limit n c = .ok c' ∧ c'.Ready ∧ c'.iInputBuffer.size ≤ c.iInputBuffer.size := by
  induction n with
  | zero =>
    intro c hsafe hsize _
    exact ⟨c, by rw [flushInput, if_neg (by omega)], hsafe.ready, le_rfl⟩
  | succ n ih =>
    intro c hsafe hsize hfour
    unfold flushInput
    by_cases hmore : 0 < c.iInputBuffer.size ∧ c.iCompressedBytes < limit
    · obtain ⟨c', hok, hsafe', hless⟩ := writeRunL_safe hsafe hmore.2 hfour
      have hlt := hless hmore.1
      obtain ⟨c'', hok', hready, hle⟩ := ih c' hsafe' (by omega) (by omega)
      exact ⟨c'', by rw [if_pos hmore, hok, run_ok_bind, hok'], hready, by omega⟩
    · exact ⟨c, by rw [if_neg hmore], hsafe.ready, le_rfl⟩

variable {c : TUnicodeCompressor}

theorem toList_readCharacter (x : UInt16) (h : c.iInputBuffer.size ≤ 3) :
    (c.readCharacter x).iInputBuffer.toList = c.iInputBuffer.toList ++ [TAction.ofCode x] :=
  RingBuffer.toList_push _ (show c.iInputBuffer.size < 4 by omega)

theorem Ready.readCharacter (hready : c.Ready) (x : UInt16) (h : c.iInputBuffer.size ≤ 3) :
    (c.readCharacter x).Ready where
  base := hready.base
  windows := hready.windows
  proper a ha := by
    rw [toList_readCharacter x h, List.mem_append, List.mem_singleton] at ha
    rcases ha with ha | rfl
    · exact hready.proper a ha
    · rfl

theorem readCharacters_cons {limit : ℕ} (x : UInt16) (xs : List UInt16)
    (h : c.iCompressedBytes < limit) : readCharacters limit (x :: xs) c =
      (if c.iInputBuffer.size + 1 = 4 then (c.readCharacter x).WriteRunL limit else .ok (c.readCharacter x)) >>=
        readCharacters limit xs := if_pos h

theorem readCharacters_safe (limit : ℕ) (xs : List UInt16) : ∀ c : TUnicodeCompressor, c.Safe limit →
    c.iInputBuffer.size ≤ 3 → ∃ c', readCharacters limit xs c = .ok c' ∧ c'.Safe limit ∧ c'.iInputBuffer.size ≤ 3 := by
  induction xs with
  | nil => exact fun c hsafe h => ⟨c, rfl, hsafe, h⟩
  | cons x xs ih =>
    intro c hsafe h
    by_cases hlimit : c.iCompressedBytes < limit
    · rw [readCharacters_cons x xs hlimit]
      have hsize : (c.readCharacter x).iInputBuffer.size = c.iInputBuffer.size + 1 := rfl
      have hsafe' : (c.readCharacter x).Safe limit := ⟨hsafe.ready.readCharacter x h, hsafe.empty⟩
      by_cases hfull : c.iInputBuffer.size + 1 = 4
      · obtain ⟨c', hok, hsafe'', hless⟩ := writeRunL_safe hsafe' hlimit (by omega)
        have hlt := hless (by omega)
        obtain ⟨c'', hok', hsafe''', h'⟩ := ih c' hsafe'' (by omega)
        exact ⟨c'', by rw [if_pos hfull, hok, run_ok_bind, hok'], hsafe''', h'⟩
      · obtain ⟨c'', hok', hsafe''', h'⟩ := ih _ hsafe' (by omega)
        exact ⟨c'', by rw [if_neg hfull, run_ok_bind, hok'], hsafe''', h'⟩
    · exact ⟨c, if_neg hlimit, hsafe, h⟩

theorem doCompressL_ready (limit : ℕ) (xs : List UInt16) (hready : c.Ready) (h : c.iInputBuffer.size ≤ 3) :
    ∃ c', c.DoCompressL limit xs = .ok c' ∧ c'.Ready ∧ c'.iInputBuffer.size ≤ 3 := by
  set start : TUnicodeCompressor := { c with iCompressedBytes := 0, iUnicodeWords := 0, iOutput := [] } with hstart
  have hflushed := flush_flushed limit start.iOutputBuffer.size start rfl
  have hready' : start.Ready := ⟨hready.base, hready.windows, hready.proper⟩
  obtain ⟨c₁, hok₁, hsafe₁, h₁⟩ := readCharacters_safe limit xs (start.FlushOutputBufferL limit)
    ⟨hflushed.ready hready', hflushed.empty⟩ (by
      rw [FlushOutputBufferL, hflushed.input]
      exact h)
  obtain ⟨c₂, hok₂, hready₂, h₂⟩ := flushInput_safe limit c₁.iInputBuffer.size c₁ hsafe₁ le_rfl (by omega)
  refine ⟨c₂, ?_, hready₂, h₂.trans h₁⟩
  unfold DoCompressL
  rw [← hstart]
  simp only [hok₁, run_ok_bind]
  exact hok₂

/-! ### Room for all -/

/-- Between two runs when the limit has not mattered. -/
structure Idle (c : TUnicodeCompressor) : Prop where
  ready : c.Ready
  empty : c.iOutputBuffer.size = 0
  counted : c.iCompressedBytes = c.iOutput.length

/-- The characters that wait. -/
def pending (c : TUnicodeCompressor) : List UInt16 := c.iInputBuffer.toList.map TAction.iCode

/-- From `c` to `c'` the bytes have been written, and they mean the characters that have gone. -/
structure Advance (c c' : TUnicodeCompressor) (codes : List UInt16) (bytes : Bytes) : Prop where
  means : Means c.reader bytes codes c'.reader
  output : c'.iOutput = c.iOutput ++ bytes
  idle : c'.Idle

theorem Advance.trans {c c' c'' : TUnicodeCompressor} {v w : List UInt16} {a b : Bytes} (h : Advance c c' v a)
    (h' : Advance c' c'' w b) : Advance c c'' (v ++ w) (a ++ b) where
  means := h.means.trans h'.means
  output := by rw [h'.output, h.output, List.append_assoc]
  idle := h'.idle

theorem writeRunL_advance (hidle : c.Idle) (hpos : 0 < c.iInputBuffer.size) (hfour : c.iInputBuffer.size ≤ 4) :
    ∃ c' codes bytes, (∀ limit, c.iOutput.length + bytes.length ≤ limit → c.WriteRunL limit = .ok c') ∧
      Advance c c' codes bytes ∧ c.pending = codes ++ c'.pending ∧ c'.iInputBuffer.size < c.iInputBuffer.size ∧
      c'.iUnicodeWords = c.iUnicodeWords ∧ bytes ≠ [] := by
  obtain ⟨c₁, taken, bytes, hok, hstep, hne⟩ := writeRun_step hidle.ready hidle.empty hfour
  have hsize : c₁.iOutputBuffer.size = bytes.length := by rw [hstep.size, hidle.empty, Nat.zero_add]
  have hbuffer : c₁.iOutputBuffer.toList = bytes := by
    rw [hstep.buffer, RingBuffer.toList_of_size_eq_zero hidle.empty, List.nil_append]
  obtain ⟨buffer, hempty, hflush⟩ := flush_all bytes.length c₁ hsize
  rw [hbuffer, hstep.compressed, hidle.counted, hstep.output] at hflush
  refine ⟨{ c₁ with
      iOutput := c.iOutput ++ bytes
      iCompressedBytes := c.iOutput.length + bytes.length
      iOutputBuffer := buffer }, taken.map TAction.iCode, bytes, fun limit hlimit => ?_, ⟨hstep.means, rfl, ?_⟩, ?_, ?_,
    hstep.words, (hne hpos).2⟩
  · rw [WriteRunL, hok, run_ok_bind, FlushOutputBufferL, hsize, hflush limit hlimit]
  · exact ⟨⟨hstep.ready.base, hstep.ready.windows, hstep.ready.proper⟩, hempty, List.length_append.symm⟩
  · rw [pending, hstep.input, List.map_append]
    rfl
  · rw [hstep.taken]
    exact Nat.lt_add_of_pos_left (List.length_pos_of_ne_nil (hne hpos).1)

theorem pending_nil (h : c.iInputBuffer.size = 0) : c.pending = [] := by
  rw [pending, RingBuffer.toList_of_size_eq_zero h, List.map_nil]

theorem flushInput_advance (n : ℕ) : ∀ c : TUnicodeCompressor, c.Idle → c.iInputBuffer.size ≤ n →
    c.iInputBuffer.size ≤ 4 →
    ∃ c' bytes, (∀ limit, c.iOutput.length + bytes.length ≤ limit → flushInput limit n c = .ok c') ∧
      Advance c c' c.pending bytes ∧ c'.iInputBuffer.size = 0 ∧ c'.iUnicodeWords = c.iUnicodeWords ∧
      (0 < c.iInputBuffer.size → bytes ≠ []) := by
  induction n with
  | zero =>
    intro c hidle hsize _
    have hnone : c.iInputBuffer.size = 0 := by omega
    refine ⟨c, [], fun limit _ => ?_, ⟨?_, (List.append_nil _).symm, hidle⟩, hnone, rfl, fun h => by omega⟩
    · rw [flushInput, if_neg (by omega)]
    · rw [pending_nil hnone]
      exact .nil _
  | succ n ih =>
    intro c hidle hsize hfour
    by_cases hpos : 0 < c.iInputBuffer.size
    · obtain ⟨c₁, codes, bytes₁, hok₁, hadvance₁, hpending, hless, hwords₁, hne⟩ := writeRunL_advance hidle hpos hfour
      obtain ⟨c₂, bytes₂, hok₂, hadvance₂, hempty, hwords₂, -⟩ := ih c₁ hadvance₁.idle (by omega) (by omega)
      have hlen : 0 < bytes₁.length := List.length_pos_of_ne_nil hne
      refine ⟨c₂, bytes₁ ++ bytes₂, fun limit hlimit => ?_, ?_, hempty, hwords₂.trans hwords₁, fun _ h => ?_⟩
      · rw [List.length_append] at hlimit
        have hcount := hidle.counted
        rw [flushInput, if_pos ⟨hpos, by omega⟩, hok₁ limit (by omega), run_ok_bind]
        refine hok₂ limit ?_
        rw [hadvance₁.output, List.length_append]
        omega
      · rw [hpending]
        exact hadvance₁.trans hadvance₂
      · exact hne (List.append_eq_nil_iff.mp h).1
    · have hnone : c.iInputBuffer.size = 0 := by omega
      refine ⟨c, [], fun limit _ => ?_, ⟨?_, (List.append_nil _).symm, hidle⟩, hnone, rfl, fun h => absurd h hpos⟩
      · rw [flushInput, if_neg fun h => hpos h.1]
      · rw [pending_nil hnone]
        exact .nil _

theorem readCharacters_advance (xs : List UInt16) : ∀ c : TUnicodeCompressor, c.Idle → c.iInputBuffer.size ≤ 3 →
    ∃ c' bytes, (∀ limit, c.iOutput.length + bytes.length ≤ limit →
        (readCharacters limit xs c >>= FlushInputBufferL limit) = .ok c') ∧
      Advance c c' (c.pending ++ xs) bytes ∧ c'.iInputBuffer.size = 0 ∧
      c'.iUnicodeWords = c.iUnicodeWords + xs.length ∧ (0 < c.iInputBuffer.size ∨ xs ≠ [] → bytes ≠ []) := by
  induction xs with
  | nil =>
    intro c hidle h
    obtain ⟨c', bytes, hok, hadvance, hempty, hwords, hne⟩ := flushInput_advance c.iInputBuffer.size c hidle le_rfl (by omega)
    rw [List.append_nil]
    exact ⟨c', bytes, hok, hadvance, hempty, hwords, fun h => hne (h.resolve_right fun h => h rfl)⟩
  | cons x xs ih =>
    intro c hidle h
    have hsize : (c.readCharacter x).iInputBuffer.size = c.iInputBuffer.size + 1 := rfl
    have houtput : (c.readCharacter x).iOutput = c.iOutput := rfl
    have hwords : (c.readCharacter x).iUnicodeWords = c.iUnicodeWords + 1 := rfl
    have hidle' : (c.readCharacter x).Idle := ⟨hidle.ready.readCharacter x h, hidle.empty, hidle.counted⟩
    have hpending : c.pending ++ x :: xs = (c.readCharacter x).pending ++ xs := by
      rw [pending, pending, toList_readCharacter x h, List.map_append, List.append_assoc]
      rfl
    have hcount := hidle.counted
    rw [hpending]
    by_cases hfull : c.iInputBuffer.size + 1 = 4
    · obtain ⟨c₁, codes, bytes₁, hok₁, hadvance₁, hpending₁, hless, hwords₁, hne⟩ :=
        writeRunL_advance hidle' (by omega) (by omega)
      obtain ⟨c₂, bytes₂, hok₂, hadvance₂, hempty, hwords₂, -⟩ := ih c₁ hadvance₁.idle (by omega)
      have hlen : 0 < bytes₁.length := List.length_pos_of_ne_nil hne
      refine ⟨c₂, bytes₁ ++ bytes₂, fun limit hlimit => ?_, ?_, hempty, ?_, fun _ h => ?_⟩
      · rw [List.length_append] at hlimit
        have hlt : c.iCompressedBytes < limit := by omega
        rw [readCharacters_cons x xs hlt, if_pos hfull, hok₁ limit (by rw [houtput]; omega), run_ok_bind]
        refine hok₂ limit ?_
        rw [hadvance₁.output, List.length_append, houtput]
        omega
      · rw [hpending₁, List.append_assoc]
        obtain ⟨hmeans, hout, hidle₂⟩ := hadvance₁.trans hadvance₂
        exact ⟨hmeans, hout, hidle₂⟩
      · rw [hwords₂, hwords₁, List.length_cons]
        omega
      · exact hne (List.append_eq_nil_iff.mp h).1
    · obtain ⟨c₂, bytes₂, hok₂, hadvance₂, hempty, hwords₂, hne⟩ := ih _ hidle' (by omega)
      have hne' := hne (.inl (by omega))
      have hlen : 0 < bytes₂.length := List.length_pos_of_ne_nil hne'
      refine ⟨c₂, bytes₂, fun limit hlimit => ?_, ⟨hadvance₂.means, hadvance₂.output, hadvance₂.idle⟩, hempty, ?_,
        fun _ => hne'⟩
      · have hlt : c.iCompressedBytes < limit := by omega
        rw [readCharacters_cons x xs hlt, if_neg hfull, run_ok_bind]
        exact hok₂ limit hlimit
      · rw [hwords₂, List.length_cons]
        omega

theorem reset_ready : reset.Ready :=
  ⟨rfl, by decide, fun _ h => absurd h List.not_mem_nil⟩

/-- The compressor ends, and what it gives out means the input. -/
theorem doCompressL_advance (xs : List UInt16) (hready : c.Ready)
    (hempty : c.iOutputBuffer.size = 0) (hinput : c.iInputBuffer.size = 0) :
    ∃ c' bytes, (∀ limit, bytes.length ≤ limit → c.DoCompressL limit xs = .ok c') ∧ c'.Idle ∧
      c'.iInputBuffer.size = 0 ∧ c'.iOutput = bytes ∧ c'.iUnicodeWords = xs.length ∧
      Means c.reader bytes xs c'.reader := by
  set start : TUnicodeCompressor := { c with iCompressedBytes := 0, iUnicodeWords := 0, iOutput := [] } with hstart
  have hidle : start.Idle := ⟨⟨hready.base, hready.windows, hready.proper⟩, hempty, rfl⟩
  obtain ⟨c', bytes, hok, hadvance, hinput', hwords, -⟩ := readCharacters_advance xs start hidle (by
    show c.iInputBuffer.size ≤ 3
    omega)
  have hpending : start.pending = [] := pending_nil hinput
  rw [hpending, List.nil_append] at hadvance
  refine ⟨c', bytes, fun limit hlimit => ?_, hadvance.idle, hinput', ?_, ?_, hadvance.means⟩
  · have hflush : start.FlushOutputBufferL limit = start := by
      have hnone : start.iOutputBuffer.size = 0 := hempty
      rw [FlushOutputBufferL, hnone, flush]
    unfold DoCompressL
    rw [← hstart]
    simp only [hflush]
    exact hok limit (by show ([] : Bytes).length + _ ≤ _; simpa using hlimit)
  · rw [hadvance.output]
    rfl
  · rw [hwords]
    exact Nat.zero_add _

theorem doCompressL_nil (limit : ℕ) (hempty : c.iOutputBuffer.size = 0) (hinput : c.iInputBuffer.size = 0) :
    c.DoCompressL limit [] = .ok { c with iCompressedBytes := 0, iUnicodeWords := 0, iOutput := [] } := by
  unfold DoCompressL FlushOutputBufferL
  simp only [hempty, flush, readCharacters, run_ok_bind]
  rw [FlushInputBufferL]
  simp only [hinput]
  exact if_neg fun h => absurd h.1 (by simp only [hinput]; omega)

end TUnicodeCompressor

theorem compressUnicode_room (words : List UInt16) : ∃ bytes, decode .start bytes = some words ∧
    ∀ limit, bytes.length ≤ limit → CompressUnicode limit words = .ok (bytes, bytes.length) := by
  obtain ⟨c, bytes, hok, hidle, hinput, houtput, hwords, hmeans⟩ :=
    TUnicodeCompressor.doCompressL_advance words TUnicodeCompressor.reset_ready rfl rfl
  refine ⟨bytes, hmeans.decode_eq, fun limit hlimit => ?_⟩
  unfold CompressUnicode
  rw [hok limit hlimit, run_ok_bind, TUnicodeCompressor.doCompressL_nil limit hidle.empty hinput, run_ok_bind,
    if_neg (not_not.mpr hwords), hidle.counted, houtput]
  rfl

/-- **The compressed characters mean themselves.**  The queue of bytes never overflows, and with room for the
whole result the bytes are read back as the characters. -/
theorem compressUnicode_decodes (words : List UInt16) :
    (∀ limit, CompressUnicode limit words ≠ .error EOutputBufferOverflow) ∧
    ∃ bytes, decode .start bytes = some words ∧
      ∀ limit, bytes.length ≤ limit → CompressUnicode limit words = .ok (bytes, bytes.length) := by
  refine ⟨fun limit => ?_, compressUnicode_room words⟩
  obtain ⟨c, hok, hready, h⟩ := TUnicodeCompressor.doCompressL_ready limit words TUnicodeCompressor.reset_ready
    (Nat.zero_le 3)
  obtain ⟨c', hok', -, -⟩ := TUnicodeCompressor.doCompressL_ready limit [] hready h
  unfold CompressUnicode
  rw [hok, run_ok_bind, hok', run_ok_bind]
  split
  · decide
  · rintro ⟨⟩

end GnuPoc.Rcomp
