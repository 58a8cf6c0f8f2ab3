import GnuPoc.Rcomp.Segments

/-!
# GnuPoc.Rcomp.Passes — the passes of a stream over its segments

The first pass fills in the sizes.  The second one finds a run to get rid of, which leaves the layout as it is
and a run less; when it finds none, the third pass writes the segments out.
-/

namespace GnuPoc.Rcomp

open GnuPoc.Lib

/-- What stands in front of the passes: a compressed run is proper, and one of them begins the resource. -/
structure Ready (expander : Bytes → List UInt16) (lead : Bytes) (segs : List Seg) : Prop where
  good : Good expander false lead.length segs
  balanced : Balanced 0 segs
  front : hasRun segs = true → lead = [] ∧ ∃ words compressed bs rest, segs = (.run words compressed, bs) :: rest

/-- What the first pass finds out about segments. -/
structure Known (fp : Lengths) (lead : Bytes) (segs : List Seg) : Prop where
  aSizeWhenUncompressed : fp.aSizeWhenUncompressed = total lead.length (pieces segs)
  encountered : fp.encountered = hasRun segs
  lengthOfLastRun : fp.lengthOfLastRun = lastRun 0 none segs
  filled : Filled fp.sizes fp.lengths fp.paddings 0 lead.length segs

variable {expander : Bytes → List UInt16} (segs : List Seg) (front back : List Seg)

theorem firstPass_known (symbianV6hack : Bool) {lead : Bytes} {segs : List Seg} (h : Ready expander lead segs) :
    ∃ fp, firstPass symbianV6hack (streamOf lead segs) = .ok fp ∧ Known fp lead segs := by
  have hat : FirstPass.At ⟨lead.length, lead.length, false, none, [], fun _ => 0, fun _ => 0, fun _ => false⟩ 0 :=
    ⟨fun _ hx => absurd hx List.not_mem_nil, List.nodup_nil, fun _ ha => nomatch ha⟩
  obtain ⟨st, hloop, hdone⟩ := firstLoop_done expander symbianV6hack (lead ++ buffer segs).length segs 0 lead.length
    _ List.length_append hat h.good h.balanced
  refine ⟨⟨st.uncompressedSize, st.encountered, st.address, st.flush.sizes, st.flush.lengths, st.flush.paddings⟩,
    ?_, hdone.uncompressedSize, hdone.encountered.trans (Bool.false_or _), hdone.address, hdone.filled⟩
  show (firstLoop symbianV6hack (lead ++ buffer segs).length 0 (marksOf lead.length segs)
    ⟨bytesBeforeFirstMark (lead ++ buffer segs).length (marksOf lead.length segs),
      bytesBeforeFirstMark (lead ++ buffer segs).length (marksOf lead.length segs), false, none, [], fun _ => 0,
      fun _ => 0, fun _ => false⟩ >>= _) = _
  rw [before_marksOf, hloop]
  rfl

/-! ### Which run is the last -/

theorem lastRun_of_none : ∀ i last, hasRun segs = false → lastRun i last segs = last := by
  induction segs with
  | nil => exact fun _ _ _ => rfl
  | cons seg segs ih =>
    rcases seg with ⟨e, bs⟩
    intro i last h
    rw [hasRun_cons, Bool.or_eq_false_iff] at h
    cases e with
    | run words compressed => exact absurd h.1 (by simp [Event.isRun])
    | start type => exact ih _ _ h.2
    | stop => exact ih _ _ h.2
    | align => exact ih _ _ h.2
    | enquire k => exact ih _ _ h.2

theorem lastRun_of_some : ∀ i last, hasRun segs = true → ∃ k, i < k ∧ lastRun i last segs = some k := by
  induction segs with
  | nil => exact fun _ _ h => nomatch h
  | cons seg segs ih =>
    rcases seg with ⟨e, bs⟩
    intro i last h
    rw [hasRun_cons, Bool.or_eq_true] at h
    have hother : e.isRun = false → ∃ k, i < k ∧ lastRun (i + 1) last segs = some k := by
      intro he
      obtain ⟨k, hk, hlast⟩ := ih (i + 1) last (h.resolve_left (by rw [he]; exact Bool.false_ne_true))
      exact ⟨k, by omega, hlast⟩
    cases e with
    | run words compressed =>
      by_cases hrest : hasRun segs = true
      · obtain ⟨k, hk, hlast⟩ := ih (i + 2) (some (i + 1)) hrest
        exact ⟨k, by omega, hlast⟩
      · exact ⟨i + 1, by omega, lastRun_of_none segs _ _ (Bool.not_eq_true _ ▸ hrest)⟩
    | start type => exact hother rfl
    | stop => exact hother rfl
    | align => exact hother rfl
    | enquire k => exact hother rfl

theorem isLast_eq (i : ℕ) (segs : List Seg) :
    decide (lastRun (i + 2) (some (i + 1)) segs = some (i + 1)) = !hasRun segs := by
  cases h : hasRun segs with
  | false => exact decide_eq_true (lastRun_of_none segs _ _ h)
  | true =>
    obtain ⟨k, hk, hlast⟩ := lastRun_of_some segs (i + 2) (some (i + 1)) h
    refine decide_eq_false ?_
    rw [hlast, Option.some_inj]
    omega

/-! ### The second pass -/

/-- The number of marks. -/
def markCount (segs : List Seg) : ℕ := (marksOf 0 segs).length

theorem length_marksOf : ∀ pos, (marksOf pos segs).length = markCount segs := by
  induction segs with
  | nil => exact fun _ => rfl
  | cons seg segs ih =>
    rcases seg with ⟨e, bs⟩
    intro pos
    rw [markCount, marksOf, marksOf, List.length_append, List.length_append, ih, ih]
    congr 1
    cases e with
    | run words compressed => rfl
    | start type => rfl
    | stop => rfl
    | align => rfl
    | enquire k => rfl

theorem markCount_cons (e : Event) (bs : Bytes) (segs : List Seg) :
    markCount ((e, bs) :: segs) = (if e.isRun then 2 else 1) + markCount segs := by
  rw [markCount, marksOf, List.length_append, length_marksOf]
  congr 1
  cases e with
  | run words compressed => rfl
  | start type => rfl
  | stop => rfl
  | align => rfl
  | enquire k => rfl

theorem isRun_iff {e : Event} (he : ¬ e.isRun = false) : ∃ words compressed, e = .run words compressed := by
  cases e with
  | run words compressed => exact ⟨words, compressed, rfl⟩
  | start type => exact absurd rfl he
  | stop => exact absurd rfl he
  | align => exact absurd rfl he
  | enquire k => exact absurd rfl he

theorem sizeWithPadding_le (offset : ℕ) (words : List UInt16) :
    sizeWithPadding offset words ≤ 2 * words.length + 1 := by
  unfold sizeWithPadding
  split
  · omega
  · omega

/-- The mark of an event other than a run. -/
def Event.type : Event → MarkType
  | .start type => .StartOfBlockWithSizePrefix type
  | .stop => .EndOfBlockWithSizePrefix
  | .run words _ => .StartOfCompressedUnicodeRun words
  | .align => .TwoByteAlignmentPoint
  | .enquire k => .EnquireStreamPositionWhenKnown k

/-- A segment that is no run: its mark, and what holds of the segments behind. -/
structure Passed (expander : Bytes → List UInt16) (fp : Lengths) (encountered : Bool) (i pos offset : ℕ)
    (last : Option ℕ) (e : Event) (bs : Bytes) (segs : List Seg) : Prop where
  marks : marksOf pos ((e, bs) :: segs) = ⟨pos, e.type⟩ :: marksOf (pos + bs.length) segs
  buffer : buffer ((e, bs) :: segs) = bs ++ buffer segs
  after : sizeBehind offset e.type = e.after offset
  padding : checkPadding fp i offset e.type = .ok ()
  good : Good expander encountered (e.after offset + bs.length) segs
  last : lastRun i last ((e, bs) :: segs) = lastRun (i + 1) last segs
  filled : Filled fp.sizes fp.lengths fp.paddings (i + 1) (e.after offset + bs.length) segs

theorem passed {fp : Lengths} {encountered : Bool} {i offset : ℕ} {e : Event}
    {bs : Bytes} {segs : List Seg} (pos : ℕ) (last : Option ℕ) (he : e.isRun = false)
    (hgood : Good expander encountered offset ((e, bs) :: segs))
    (hfilled : Filled fp.sizes fp.lengths fp.paddings i offset ((e, bs) :: segs)) :
    Passed expander fp encountered i pos offset last e bs segs := by
  cases e with
  | run words compressed => exact Bool.noConfusion he
  | start type => exact ⟨rfl, rfl, rfl, rfl, hgood, rfl, hfilled.2⟩
  | stop => exact ⟨rfl, rfl, rfl, rfl, hgood, rfl, hfilled⟩
  | align =>
    refine ⟨rfl, rfl, ?_, ?_, hgood, rfl, hfilled.2⟩
    · show (if offset % 2 ≠ 0 then offset + 1 else offset) = offset + offset % 2
      split
      · omega
      · omega
    · show assert (fp.paddings i == decide (offset % 2 ≠ 0)) = .ok ()
      rw [hfilled.1, beq_self_eq_true, assert_true]
  | enquire k => exact ⟨rfl, rfl, rfl, rfl, hgood, rfl, hfilled⟩

theorem secondLoop_mark {symbianV6hack : Bool} {used i pos offset : ℕ} {fp : Lengths} {encountered : Bool}
    {e : Event} (he : e.isRun = false) (marks : List Mark) :
    secondLoop symbianV6hack used fp i (⟨pos, e.type⟩ :: marks) offset encountered = (do
      checkPadding fp i offset e.type
      secondLoop symbianV6hack used fp (i + 1) marks
        (sizeBehind offset e.type + NumberOfBytesToNextMark used ⟨pos, e.type⟩ marks) encountered) := by
  cases e with
  | run words compressed => exact Bool.noConfusion he
  | start type => simp only [Event.type, secondLoop]
  | stop => simp only [Event.type, secondLoop]
  | align => simp only [Event.type, secondLoop]
  | enquire k => simp only [Event.type, secondLoop]

/-! ### The third pass -/

def RCBinaryStream.atEnd (file : Bytes) : RCBinaryStream := ⟨file, file.length⟩

@[simp] theorem write_atEnd (file bytes : Bytes) :
    (RCBinaryStream.atEnd file).Write bytes = .atEnd (file ++ bytes) := by
  unfold RCBinaryStream.Write RCBinaryStream.atEnd
  rw [List.length_append]
  congr 1
  split
  case isTrue h => rw [h, List.append_nil]
  case isFalse => exact writeAt_length file bytes

/-- The lengths that are written with a run. -/
def behindRun (segs : List Seg) (n : ℕ) : Bytes := if hasRun segs || 0 < n then compressedInteger n else []

/-- What the third pass writes for an event in front of `rest`. -/
def Event.emit (offset : ℕ) (bs : Bytes) (rest : List Seg) : Event → Bytes
  | .start type =>
    (⟨type, endOf 0 (offset + GetSize type) (.data bs :: Rcomp.pieces rest) - (offset + GetSize type)⟩ :
      NumericValue).iData
  | .stop => []
  | .run words compressed => compressedInteger compressed.length ++ compressed ++
      behindRun rest (bs.length + otherLength (Event.after offset (.run words compressed) + bs.length) rest)
  | .align => padding offset
  | .enquire _ => []

def emit : ℕ → List Seg → Bytes
  | _, [] => []
  | offset, (e, bs) :: segs => e.emit offset bs segs ++ bs ++ emit (e.after offset + bs.length) segs

/-- The positions that are enquired after, when the segments are written from a position on. -/
def sites : ℕ → ℕ → List Seg → List (ℕ × ℕ)
  | _, _, [] => []
  | pos, offset, (.enquire k, bs) :: segs => (k, pos) :: sites (pos + bs.length) (offset + bs.length) segs
  | pos, offset, (e, bs) :: segs =>
    sites (pos + (e.emit offset bs segs).length + bs.length) (e.after offset + bs.length) segs

/-- Every length that is written fits. -/
def Fits : ℕ → List Seg → Prop
  | _, [] => True
  | offset, (.run words compressed, bs) :: segs =>
    compressed.length < 0x8000 ∧
      bs.length + otherLength (Event.after offset (.run words compressed) + bs.length) segs < 0x8000 ∧
      Fits (Event.after offset (.run words compressed) + bs.length) segs
  | offset, (e, bs) :: segs => Fits (e.after offset + bs.length) segs

theorem fits_mark {e : Event} (he : e.isRun = false) (offset : ℕ) (bs : Bytes) (segs : List Seg) :
    Fits offset ((e, bs) :: segs) ↔ Fits (e.after offset + bs.length) segs := by
  cases e with
  | run words compressed => exact Bool.noConfusion he
  | start type => exact Iff.rfl
  | stop => exact Iff.rfl
  | align => exact Iff.rfl
  | enquire k => exact Iff.rfl

theorem writeLength_cases (n : ℕ) (file : Bytes) :
    (writeLength false n (.atEnd file) = .error (.runLength n) ∧ 0x8000 ≤ n) ∨
      (writeLength false n (.atEnd file) = .ok (.atEnd (file ++ compressedInteger n)) ∧ n < 0x8000) := by
  unfold writeLength RCBinaryStream.WriteCompressedInteger
  rw [if_neg Bool.false_ne_true, write_atEnd]
  by_cases h : n < 0x8000
  · exact .inr ⟨if_pos h, h⟩
  · exact .inl ⟨if_neg h, Nat.le_of_not_lt h⟩

/-- The third pass writes the lengths of a run, or stops at one that is too long. -/
theorem run_cases {iBuffer before compressed behind file : Bytes} {uncompressed n offset : ℕ}
    {encountered : Bool} {positions : List (ℕ × ℕ)} (rest : List Seg)
    (hbuffer : iBuffer = before ++ (compressed ++ behind)) :
    (¬ (compressed.length < 0x8000 ∧ n < 0x8000) ∧ ∃ m, ThirdPass.run false iBuffer compressed.length uncompressed
      (!hasRun rest) n ⟨.atEnd file, before.length, offset, encountered, positions⟩ = .error (.runLength m)) ∨
    (compressed.length < 0x8000 ∧ n < 0x8000 ∧
      ThirdPass.run false iBuffer compressed.length uncompressed (!hasRun rest) n
        ⟨.atEnd file, before.length, offset, encountered, positions⟩ = .ok
          ⟨.atEnd (file ++ (compressedInteger compressed.length ++ compressed ++ behindRun rest n)),
            (before ++ compressed).length, offset + uncompressed, true, positions⟩) := by
  unfold ThirdPass.run
  rcases writeLength_cases compressed.length file with ⟨h, hle⟩ | ⟨h, hlt⟩
  · exact .inl ⟨fun hfits => absurd hfits.1 (Nat.not_lt.mpr hle), compressed.length,
      by simp only [h, run_error_bind]⟩
  · have hread : readAt iBuffer before.length compressed.length = compressed := by
      rw [hbuffer, readAt_middle]
    simp only [h, run_ok_bind, ThirdPass.copy, hread, write_atEnd, Bool.not_not]
    by_cases hwritten : (hasRun rest || decide (0 < n)) = true
    · rw [if_pos hwritten, behindRun, if_pos hwritten]
      rcases writeLength_cases n (file ++ compressedInteger compressed.length ++ compressed) with
        ⟨h', hle'⟩ | ⟨h', hlt'⟩
      · exact .inl ⟨fun hfits => absurd hfits.2 (Nat.not_lt.mpr hle'), n, by rw [h']; rfl⟩
      · refine .inr ⟨hlt, hlt', ?_⟩
        rw [h', run_ok_bind, List.length_append]
        simp only [List.append_assoc]
    · have hn : n < 0x8000 := by
        rw [Bool.or_eq_true, not_or, decide_eq_true_eq] at hwritten
        omega
      rw [if_neg hwritten, behindRun, if_neg hwritten]
      refine .inr ⟨hlt, hn, ?_⟩
      rw [List.append_nil, List.length_append]
      simp only [List.append_assoc]

theorem thirdLoop_mark {symbianV6hack dump : Bool} {iBuffer : Bytes} {fp : Lengths} {i pos : ℕ} {st : ThirdPass}
    {e : Event} (he : e.isRun = false) (marks : List Mark) :
    thirdLoop symbianV6hack dump iBuffer fp i (⟨pos, e.type⟩ :: marks) st = (do
      checkPadding fp i st.uncompressedSize e.type
      thirdLoop symbianV6hack dump iBuffer fp (i + 1) marks
        (ThirdPass.toNextMark iBuffer (NumberOfBytesToNextMark iBuffer.length ⟨pos, e.type⟩ marks)
          { st.mark fp i e.type with uncompressedSize := sizeBehind st.uncompressedSize e.type })) := by
  cases e with
  | run words compressed => exact Bool.noConfusion he
  | start type => simp only [Event.type, thirdLoop]
  | stop => simp only [Event.type, thirdLoop]
  | align => simp only [Event.type, thirdLoop]
  | enquire k => simp only [Event.type, thirdLoop]

theorem mark_eq {fp : Lengths} {i bufferIndex offset : ℕ} {encountered : Bool} {positions : List (ℕ × ℕ)}
    {file : Bytes} {e : Event} {bs : Bytes} {segs : List Seg} (he : e.isRun = false)
    (hfilled : Filled fp.sizes fp.lengths fp.paddings i offset ((e, bs) :: segs)) :
    ∃ found, ThirdPass.mark fp i ⟨.atEnd file, bufferIndex, offset, encountered, positions⟩ e.type =
        ⟨.atEnd (file ++ e.emit offset bs segs), bufferIndex, offset, encountered, positions ++ found⟩ ∧
      sites file.length offset ((e, bs) :: segs) = found ++
        sites (file ++ e.emit offset bs segs ++ bs).length (e.after offset + bs.length) segs := by
  simp only [List.length_append]
  cases e with
  | run words compressed => exact Bool.noConfusion he
  | start type =>
    refine ⟨[], ?_, rfl⟩
    rw [List.append_nil, Event.emit, ← hfilled.1]
    simp only [Event.type, ThirdPass.mark, write_atEnd]
  | stop => exact ⟨[], by simp [Event.type, ThirdPass.mark, Event.emit], rfl⟩
  | align => exact ⟨[], by simp [Event.type, ThirdPass.mark, Event.emit], rfl⟩
  | enquire k => exact ⟨[(k, file.length)], by simp [Event.type, ThirdPass.mark, Event.emit,
      RCBinaryStream.atEnd, RCBinaryStream.GetPosition], rfl⟩

/-- **The third pass.**  The segments are written out exactly if every length fits. -/
theorem thirdLoop_done (expander : Bytes → List UInt16) (symbianV6hack : Bool) (iBuffer : Bytes) (fp : Lengths) :
    ∀ (segs : List Seg) (i : ℕ) (before : Bytes) (offset : ℕ) (encountered : Bool) (last : Option ℕ)
      (file : Bytes) (positions : List (ℕ × ℕ)),
      iBuffer = before ++ buffer segs → Good expander encountered offset segs →
      fp.lengthOfLastRun = lastRun i last segs → Filled fp.sizes fp.lengths fp.paddings i offset segs →
      fp.aSizeWhenUncompressed = total offset (pieces segs) → (symbianV6hack = true → hasRun segs = false) →
      (¬ Fits offset segs ∧ ∃ m, thirdLoop symbianV6hack false iBuffer fp i (marksOf before.length segs)
        ⟨.atEnd file, before.length, offset, encountered, positions⟩ = .error (.runLength m)) ∨
      (Fits offset segs ∧ thirdLoop symbianV6hack false iBuffer fp i (marksOf before.length segs)
        ⟨.atEnd file, before.length, offset, encountered, positions⟩ = .ok
          ⟨.atEnd (file ++ emit offset segs), iBuffer.length, total offset (pieces segs),
            encountered || hasRun segs, positions ++ sites file.length offset segs⟩)
  | [], i, before, offset, encountered, last, file, positions, hbuffer, _, _, _, hsize, _ => by
    refine .inr ⟨trivial, ?_⟩
    have hlen : iBuffer = before := hbuffer.trans (List.append_nil _)
    show (assert (fp.aSizeWhenUncompressed == offset) >>= fun _ => _) = _
    rw [hsize, show total offset (pieces []) = offset from rfl, beq_self_eq_true, hlen]
    simp [emit, sites, hasRun]
  | (e, bs) :: segs, i, before, offset, encountered, last, file, positions, hbuffer, hgood, hlast, hfilled, hsize,
      hv => by
    rw [total_pieces_cons] at hsize ⊢
    by_cases he : e.isRun = false
    · have hpassed := @passed _ fp _ _ _ _ _ _ before.length last he hgood hfilled
      rw [hpassed.buffer] at hbuffer
      have hread : readAt iBuffer before.length bs.length = bs := by rw [hbuffer, readAt_middle]
      have hused : iBuffer.length = before.length + bs.length + (buffer segs).length := by
        rw [hbuffer, List.length_append, List.length_append, Nat.add_assoc]
      obtain ⟨found, hmark, hsites⟩ := @mark_eq fp _ before.length _ encountered positions file
        _ _ _ he hfilled
      have ih := thirdLoop_done expander symbianV6hack iBuffer fp segs (i + 1) (before ++ bs)
        (e.after offset + bs.length) encountered last (file ++ e.emit offset bs segs ++ bs) (positions ++ found)
        (by rw [hbuffer, List.append_assoc]) hpassed.good (hlast.trans hpassed.last) hpassed.filled hsize
        fun h => (Bool.or_eq_false_iff.mp (hasRun_cons e bs segs ▸ hv h)).2
      rw [hpassed.marks, thirdLoop_mark he, hpassed.padding, run_ok_bind, hpassed.after,
        toNextMark_marksOf _ hused, hmark]
      simp only [ThirdPass.toNextMark, ThirdPass.copy, hread, write_atEnd]
      rw [List.length_append] at ih
      have hsame := fits_mark he offset bs segs
      rcases ih with ⟨hlong, m, ih⟩ | ⟨hfits, ih⟩
      · exact .inl ⟨fun h => hlong (hsame.mp h), m, ih⟩
      · refine .inr ⟨hsame.mpr hfits, ?_⟩
        · rw [ih, hsites, hasRun_cons, he, Bool.false_or, emit]
          simp only [List.append_assoc]
    · obtain ⟨words, compressed, rfl⟩ := isRun_iff he
      have hv' : symbianV6hack = false := by
        by_contra h
        exact absurd (hv (Bool.not_eq_false _ ▸ h)) (by rw [hasRun_cons]; exact Bool.noConfusion)
      have hafter := after_run_eq hgood.1
      have hisLast : decide (fp.lengthOfLastRun = some (i + 1)) = !hasRun segs := by
        rw [hlast]
        exact isLast_eq i segs
      have hbuffer' : iBuffer = before ++ (compressed ++ (bs ++ buffer segs)) := by
        rw [hbuffer, ← List.append_assoc compressed]
        rfl
      have hused : iBuffer.length = before.length + compressed.length + bs.length + (buffer segs).length := by
        rw [hbuffer', List.length_append, List.length_append, List.length_append, Nat.add_assoc, Nat.add_assoc]
      have hnext := toNextMark_marksOf .EndOfCompressedUnicodeRun hused
      have hsize' : numberOfBytesWhenCompressed symbianV6hack words
          ⟨before.length, .StartOfCompressedUnicodeRun words⟩
          ⟨before.length + compressed.length, .EndOfCompressedUnicodeRun⟩ = compressed.length := by
        rw [numberOfBytesWhenCompressed, hv', if_neg Bool.false_ne_true, Nat.add_sub_cancel_left]
      have hcheck := checkRun_eq symbianV6hack before.length hgood.1
      rw [hsize'] at hcheck
      show (_ ∧ ∃ m, thirdLoop symbianV6hack false iBuffer fp i
        (⟨before.length, .StartOfCompressedUnicodeRun words⟩ ::
          ⟨before.length + compressed.length, .EndOfCompressedUnicodeRun⟩ ::
          marksOf (before.length + compressed.length + bs.length) segs) _ = _) ∨ (_ ∧ thirdLoop symbianV6hack
        false iBuffer fp i (⟨before.length, .StartOfCompressedUnicodeRun words⟩ ::
          ⟨before.length + compressed.length, .EndOfCompressedUnicodeRun⟩ ::
          marksOf (before.length + compressed.length + bs.length) segs) _ = _)
      simp only [thirdLoop, hsize', hcheck, run_ok_bind, hisLast, hnext]
      have hread : readAt iBuffer (before ++ compressed).length bs.length = bs := by
        rw [hbuffer', ← List.append_assoc before, readAt_middle]
      rcases @run_cases iBuffer before compressed _ file (sizeWithPadding offset words) (fp.lengths (i + 1))
        offset encountered positions segs hbuffer' with
        ⟨hlong, m, hrun⟩ | ⟨hfit, hfit', hrun⟩
      · exact .inl ⟨fun h => hlong ⟨h.1, hfilled.1 ▸ h.2.1⟩, m, by rw [hrun]; rfl⟩
      · have ih := thirdLoop_done expander symbianV6hack iBuffer fp segs (i + 2) (before ++ compressed ++ bs)
          (Event.after offset (.run words compressed) + bs.length) true (some (i + 1))
          (file ++ (compressedInteger compressed.length ++ compressed ++ behindRun segs (fp.lengths (i + 1))) ++ bs)
          positions (by rw [hbuffer']; simp only [List.append_assoc]) hgood.2 hlast hfilled.2 hsize
          fun h => absurd h (by rw [hv']; exact Bool.false_ne_true)
        have hlen : before.length + compressed.length + bs.length = (before ++ compressed ++ bs).length := by
          rw [List.length_append, List.length_append]
        rw [hrun, run_ok_bind]
        simp only [ThirdPass.toNextMark, ThirdPass.copy, hread, write_atEnd, hlen, ← hafter]
        rcases ih with ⟨hlong, m, ih⟩ | ⟨hfits, ih⟩
        · exact .inl ⟨fun h => hlong h.2.2, m, by rw [← ih, @List.length_append _ (before ++ compressed)]⟩
        · refine .inr ⟨⟨hfit, hfilled.1 ▸ hfit', hfits⟩, ?_⟩
          have hemit : emit offset ((.run words compressed, bs) :: segs) = compressedInteger compressed.length ++
              compressed ++ behindRun segs (fp.lengths (i + 1)) ++ bs ++
              emit (Event.after offset (.run words compressed) + bs.length) segs := by
            rw [emit, Event.emit, hfilled.1]
          have hsites : sites file.length offset ((.run words compressed, bs) :: segs) =
              sites (file ++ (compressedInteger compressed.length ++ compressed ++
                behindRun segs (fp.lengths (i + 1))) ++ bs).length
                (Event.after offset (.run words compressed) + bs.length) segs := by
            rw [sites, Event.emit, hfilled.1]
            · simp only [List.length_append, Nat.add_assoc]
            · intro k h
              cases h
          rw [← List.length_append, ih, hemit, hsites, hasRun_cons, Event.isRun, Bool.true_or,
            Bool.or_true]
          simp only [List.append_assoc]

/-! ### Getting rid of a run -/

theorem buffer_append : buffer (front ++ back) = buffer front ++ buffer back :=
  List.flatMap_append

theorem pieces_append : pieces (front ++ back) = pieces front ++ pieces back :=
  List.flatMap_append

theorem hasRun_append : hasRun (front ++ back) = (hasRun front || hasRun back) :=
  List.any_append

theorem marksOf_append : ∀ pos,
    marksOf pos (front ++ back) = marksOf pos front ++ marksOf (pos + (buffer front).length) back := by
  induction front with
  | nil => exact fun _ => rfl
  | cons seg front ih =>
    rcases seg with ⟨e, bs⟩
    intro pos
    rw [List.cons_append, marksOf, marksOf, ih, length_buffer_cons, List.append_assoc]
    congr 3
    omega

theorem marksOf_shift (n : ℕ) (segs : List Seg) : ∀ pos,
    (marksOf pos segs).map (fun mark => { mark with iBufferPosition := mark.iBufferPosition + n }) =
      marksOf (pos + n) segs := by
  induction segs with
  | nil => exact fun _ => rfl
  | cons seg segs ih =>
    rcases seg with ⟨e, bs⟩
    intro pos
    have hpos : pos + e.bytes.length + bs.length + n = pos + n + e.bytes.length + bs.length := by omega
    rw [marksOf, marksOf, List.map_append, ih, hpos]
    congr 1
    cases e with
    | run words compressed =>
      have hright := Nat.add_right_comm pos compressed.length n
      show [_, (⟨pos + compressed.length + n, _⟩ : Mark)] = _
      rw [hright]
      rfl
    | start type => rfl
    | stop => rfl
    | align => rfl
    | enquire k => rfl

/-- Dropping a run turns its event into plain bytes. -/
theorem convert_eq {lead compressed : Bytes} {front back : List Seg} {words : List UInt16} {bs : Bytes}
    (hne : 0 < compressed.length) (hle : compressed.length ≤ 2 * words.length) (flag : Bool) :
    ResourceDataStream.ConvertCompressedRunToUncompressed
      { streamOf lead (front ++ (.run words compressed, bs) :: back) with iContainsCompressedUnicode := flag }
      (markCount front) = .ok
        { streamOf lead (front ++ (.align, wordBytes words ++ bs) :: back) with
          iContainsCompressedUnicode := flag } := by
  set pos := lead.length + (buffer front).length with hpos
  have hmarks : marksOf lead.length (front ++ (.run words compressed, bs) :: back) = marksOf lead.length front ++
      ⟨pos, .StartOfCompressedUnicodeRun words⟩ :: ⟨pos + compressed.length, .EndOfCompressedUnicodeRun⟩ ::
      marksOf (pos + compressed.length + bs.length) back := marksOf_append ..
  have hmarks' : marksOf lead.length (front ++ (.align, wordBytes words ++ bs) :: back) =
      marksOf lead.length front ++ ⟨pos, .TwoByteAlignmentPoint⟩ ::
      marksOf (pos + (wordBytes words ++ bs).length) back := marksOf_append ..
  have hbuffer : lead ++ buffer (front ++ (.run words compressed, bs) :: back) =
      lead ++ buffer front ++ (compressed ++ (bs ++ buffer back)) := by
    rw [buffer_append, ← List.append_assoc, ← List.append_assoc compressed]
    rfl
  have hbuffer' : lead ++ buffer (front ++ (.align, wordBytes words ++ bs) :: back) =
      lead ++ buffer front ++ wordBytes words ++ (bs ++ buffer back) := by
    rw [buffer_append, List.append_assoc _ (wordBytes words), ← List.append_assoc (wordBytes words),
      ← List.append_assoc]
    rfl
  have hlen : (lead ++ buffer front).length = pos := List.length_append
  have hdrop : (marksOf lead.length front ++ ⟨pos, .StartOfCompressedUnicodeRun words⟩ ::
      ⟨pos + compressed.length, .EndOfCompressedUnicodeRun⟩ ::
      marksOf (pos + compressed.length + bs.length) back).drop (markCount front) = _ :=
    List.drop_left' (length_marksOf front lead.length)
  have htake : (marksOf lead.length front ++ ⟨pos, .StartOfCompressedUnicodeRun words⟩ ::
      ⟨pos + compressed.length, .EndOfCompressedUnicodeRun⟩ ::
      marksOf (pos + compressed.length + bs.length) back).take (markCount front) = _ :=
    List.take_left' (length_marksOf front lead.length)
  have hstop : (lead ++ buffer front ++ (compressed ++ (bs ++ buffer back))).drop (pos + compressed.length) =
      bs ++ buffer back := by
    rw [← List.append_assoc]
    exact List.drop_left' (by rw [List.length_append, hlen])
  have hstart : (lead ++ buffer front ++ (compressed ++ (bs ++ buffer back))).take pos = lead ++ buffer front :=
    List.take_left' hlen
  have hend : pos + compressed.length + bs.length + (2 * words.length - compressed.length) =
      pos + (wordBytes words ++ bs).length := by
    rw [List.length_append, length_wordBytes]
    omega
  unfold streamOf ResourceDataStream.ConvertCompressedRunToUncompressed
  simp only [hmarks, hbuffer, hdrop, htake, hmarks', hbuffer', hstop, hstart, Nat.add_sub_cancel_left,
    if_neg (Nat.pos_iff_ne_zero.mp hne), marksOf_shift, hend]
  simp

theorem convert_empty (bs : Bytes) (back : List Seg) (flag : Bool) :
    ResourceDataStream.ConvertCompressedRunToUncompressed
      { streamOf [] ((.run [] [], bs) :: back) with iContainsCompressedUnicode := flag } 0 = .ok
        { streamOf bs back with iContainsCompressedUnicode := flag } := by
  have hmarks : marksOf 0 ((.run [] [], bs) :: back) = ⟨0, .StartOfCompressedUnicodeRun []⟩ ::
      ⟨0, .EndOfCompressedUnicodeRun⟩ :: marksOf bs.length back := by
    rw [marksOf]
    simp [Event.marks, Event.bytes]
  have hshift := marksOf_shift 0 back bs.length
  unfold streamOf ResourceDataStream.ConvertCompressedRunToUncompressed
  simp only [List.length_nil, hmarks, List.drop_zero, List.take_zero, Nat.sub_self, if_pos, Nat.mul_zero, hshift]
  rfl

/-- The bytes behind the places that are enquired after, changed. -/
def Seg.patch (f : ℕ → Bytes → Bytes) : Seg → Seg
  | (.enquire k, bs) => (.enquire k, f k bs)
  | seg => seg

def patched (f : ℕ → Bytes → Bytes) (segs : List Seg) : List Seg := segs.map (Seg.patch f)

/-- The places that are enquired after, with the bytes that follow. -/
def places (segs : List Seg) : List (ℕ × Bytes) :=
  segs.filterMap fun
    | (.enquire k, bs) => some (k, bs)
    | _ => none

theorem places_append : places (front ++ back) = places front ++ places back :=
  List.filterMap_append

theorem good_of_not_hasRun : ∀ encountered offset, hasRun segs = false → Good expander encountered offset segs := by
  induction segs with
  | nil => exact fun _ _ _ => trivial
  | cons seg segs ih =>
    rcases seg with ⟨e, bs⟩
    intro encountered offset h
    rw [hasRun_cons, Bool.or_eq_false_iff] at h
    cases e with
    | run words compressed => exact nomatch h.1
    | start type => exact ih _ _ h.2
    | stop => exact ih _ _ h.2
    | align => exact ih _ _ h.2
    | enquire k => exact ih _ _ h.2

section
variable {expander : Bytes → List UInt16} {words : List UInt16} {compressed bs : Bytes} {back : List Seg}

/-- The other runs stay proper, and none of them loses the one that begins the resource. -/
theorem good_convert (hproper : Proper expander words compressed) (front : List Seg) : ∀ encountered offset,
    Good expander encountered offset (front ++ (.run words compressed, bs) :: back) →
    (hasRun back = false ∨ (encountered || hasRun front) = true) →
    Good expander encountered offset (front ++ (.align, wordBytes words ++ bs) :: back) := by
  induction front with
  | nil =>
    intro encountered offset hgood heligible
    have hoffset : Event.after offset .align + (wordBytes words ++ bs).length =
        Event.after offset (.run words compressed) + bs.length := by
      rw [after_run hproper.words_ne, List.length_append, length_wordBytes, sizeWithPadding]
      show offset + offset % 2 + _ = _
      split
      · omega
      · omega
    show Good expander encountered (Event.after offset .align + (wordBytes words ++ bs).length) back
    rw [hoffset]
    rcases heligible with hback | hfront
    · exact good_of_not_hasRun back _ _ hback
    · rw [show hasRun [] = false from rfl, Bool.or_false] at hfront
      rw [hfront]
      exact hgood.2
  | cons seg front ih =>
    rcases seg with ⟨e, b⟩
    intro encountered offset hgood heligible
    rw [hasRun_cons] at heligible
    cases e with
    | run words' compressed' => exact ⟨hgood.1, ih _ _ hgood.2 (.inr (Bool.true_or _))⟩
    | start type => exact ih _ _ hgood heligible
    | stop => exact ih _ _ hgood heligible
    | align => exact ih _ _ hgood heligible
    | enquire k => exact ih _ _ hgood heligible

theorem balanced_convert (front : List Seg) : ∀ depth,
    Balanced depth (front ++ (.run words compressed, bs) :: back) →
    Balanced depth (front ++ (.align, wordBytes words ++ bs) :: back) := by
  induction front with
  | nil => exact fun depth h => by cases depth <;> exact h
  | cons seg front ih =>
    rcases seg with ⟨e, b⟩
    intro depth h
    cases e with
    | start type => cases depth <;> exact ih _ h
    | stop =>
      cases depth with
      | zero => exact h
      | succ depth => exact ih _ h
    | run words' compressed' => cases depth <;> exact ih _ h
    | align => cases depth <;> exact ih _ h
    | enquire k => cases depth <;> exact ih _ h

theorem same_convert (hproper : Proper expander words compressed) (front : List Piece) :
    Same (front ++ pieces ((.run words compressed, bs) :: back))
      (front ++ pieces ((.align, wordBytes words ++ bs) :: back)) := by
  refine Same.append_left front ?_
  rw [pieces_cons, pieces_cons, Event.pieces, text, if_neg hproper.words_ne]
  exact (same_data_append (wordBytes words) bs (pieces back)).symm.cons .align

def runCount (segs : List Seg) : ℕ := segs.countP fun seg => seg.1.isRun

theorem runCount_convert (front : List Seg) : runCount (front ++ (.align, wordBytes words ++ bs) :: back) + 1 =
    runCount (front ++ (.run words compressed, bs) :: back) := by
  have halign : runCount ((.align, wordBytes words ++ bs) :: back) = runCount back :=
    List.countP_cons_of_neg Bool.false_ne_true
  have hrun : runCount ((.run words compressed, bs) :: back) = runCount back + 1 := List.countP_cons_of_pos rfl
  rw [runCount, runCount, List.countP_append, List.countP_append, ← runCount, ← runCount, ← runCount, halign, hrun,
    Nat.add_assoc]

theorem patched_append (f : ℕ → Bytes → Bytes) (front segs : List Seg) :
    patched f (front ++ segs) = patched f front ++ patched f segs := List.map_append

end

/-- What the passes come to: segments with the layout of those they began with, written out. -/
structure Written (expander : Bytes → List UInt16) (symbianV6hack : Bool) (file lead : Bytes) (segs : List Seg)
    (out : StreamedOut) (lead' : Bytes) (segs' : List Seg) : Prop where
  ready : Ready expander lead' segs'
  same : ∀ f, Same (.data lead :: pieces (patched f segs)) (.data lead' :: pieces (patched f segs'))
  places : places segs' = places segs
  plain : symbianV6hack = true → hasRun segs' = false
  fits : Fits lead'.length segs'
  out : out = ⟨hasRun segs', total lead'.length (pieces segs'), .atEnd (file ++ lead' ++ emit lead'.length segs'),
    sites (file ++ lead').length lead'.length segs'⟩

theorem thirdPass_done {symbianV6hack : Bool} {fp : Lengths} {lead : Bytes}
    {segs : List Seg} (file : Bytes) (hready : Ready expander lead segs) (hknown : Known fp lead segs)
    (hv : symbianV6hack = true → hasRun segs = false) :
    (¬ Fits lead.length segs ∧ ∃ m, thirdPass symbianV6hack false (streamOf lead segs) fp (.atEnd file) =
      .error (.runLength m)) ∨
    ∃ out, thirdPass symbianV6hack false (streamOf lead segs) fp (.atEnd file) = .ok out ∧
      Written expander symbianV6hack file lead segs out lead segs := by
  have hread : readAt (lead ++ buffer segs) 0 lead.length = lead := by
    rw [readAt, List.drop_zero, List.take_left]
  unfold thirdPass
  simp only [ResourceDataStream.iNumberOfBytesUsed, streamOf, before_marksOf, ThirdPass.toNextMark, ThirdPass.copy,
    hread, write_atEnd, Nat.zero_add]
  rcases thirdLoop_done expander symbianV6hack (lead ++ buffer segs) fp segs 0 lead lead.length false none
    (file ++ lead) [] rfl hready.good hknown.lengthOfLastRun hknown.filled hknown.aSizeWhenUncompressed hv with
    ⟨hlong, m, hloop⟩ | ⟨hfits, hloop⟩
  · exact .inl ⟨hlong, m, by rw [hloop]; rfl⟩
  · refine .inr ⟨_, ?_, hready, fun f => .refl _, rfl, hv, hfits, rfl⟩
    simp only [hloop, run_ok_bind, Bool.false_or, hknown.encountered, hknown.aSizeWhenUncompressed,
      beq_self_eq_true, assert_true, List.nil_append]

theorem good_run_after {words : List UInt16} {compressed bs : Bytes}
    {back : List Seg} (front : List Seg) : ∀ encountered offset,
    Good expander encountered offset (front ++ (.run words compressed, bs) :: back) → encountered = true →
    Proper expander words compressed := by
  induction front with
  | nil =>
    rintro encountered offset h rfl
    exact h.1.resolve_right fun hempty => Bool.noConfusion hempty.1
  | cons seg front ih =>
    rcases seg with ⟨e, b⟩
    intro encountered offset h htrue
    cases e with
    | run words' compressed' => exact ih _ _ h.2 rfl
    | start type => exact ih _ _ h htrue
    | stop => exact ih _ _ h htrue
    | align => exact ih _ _ h htrue
    | enquire k => exact ih _ _ h htrue

theorem good_run {words : List UInt16} {compressed bs : Bytes} {back : List Seg}
    (front : List Seg) : ∀ encountered offset,
    Good expander encountered offset (front ++ (.run words compressed, bs) :: back) →
    Proper expander words compressed ∨ hasRun front = false ∧ words = [] ∧ compressed = [] := by
  induction front with
  | nil =>
    intro encountered offset h
    rcases h.1 with h | ⟨-, -, hwords, hcompressed⟩
    · exact .inl h
    · exact .inr ⟨rfl, hwords, hcompressed⟩
  | cons seg front ih =>
    rcases seg with ⟨e, b⟩
    intro encountered offset h
    rw [hasRun_cons]
    cases e with
    | run words' compressed' =>
      exact .inl (good_run_after front true _ h.2 rfl)
    | start type => exact ih _ _ h
    | stop => exact ih _ _ h
    | align => exact ih _ _ h
    | enquire k => exact ih _ _ h

/-- Getting rid of a run: what the stream becomes has a run less and the same layout. -/
theorem convert_done {lead : Bytes} {front back : List Seg} {words : List UInt16}
    {compressed bs : Bytes} (hready : Ready expander lead (front ++ (.run words compressed, bs) :: back))
    (heligible : hasRun back = false ∨ hasRun front = true) :
    ∃ lead' segs', ResourceDataStream.ConvertCompressedRunToUncompressed
      { streamOf lead (front ++ (.run words compressed, bs) :: back) with
        iContainsCompressedUnicode := hasRun front || hasRun back } (markCount front) =
        .ok (streamOf lead' segs') ∧
      Ready expander lead' segs' ∧ runCount segs' < runCount (front ++ (.run words compressed, bs) :: back) ∧
      places segs' = places (front ++ (.run words compressed, bs) :: back) ∧ ∀ f, Same (.data lead :: pieces (patched f (front ++ (.run words compressed, bs) :: back)))
        (.data lead' :: pieces (patched f segs')) := by
  have hall : hasRun (front ++ (.run words compressed, bs) :: back) = true := by
    rw [hasRun_append, hasRun_cons]
    exact Bool.or_true _
  obtain ⟨hlead, words', compressed', bs', rest, hhead⟩ := hready.front hall
  rcases good_run front _ _ hready.good with hproper | ⟨hfront, rfl, rfl⟩
  · have hrun : hasRun (front ++ (.align, wordBytes words ++ bs) :: back) = (hasRun front || hasRun back) := by
      rw [hasRun_append, hasRun_cons]
      rfl
    refine ⟨lead, front ++ (.align, wordBytes words ++ bs) :: back, ?_, ⟨?_, ?_, ?_⟩, ?_, ?_, fun f => ?_⟩
    · rw [convert_eq hproper.length_pos hproper.shorter.le, ← hrun]
      rfl
    · exact good_convert hproper front _ _ hready.good (by rw [Bool.false_or]; exact heligible)
    · exact balanced_convert front 0 hready.balanced
    · intro h
      rw [hrun] at h
      rcases front with _ | ⟨seg, front⟩
      · rw [show hasRun [] = false from rfl, Bool.false_or] at h
        rcases heligible with hback | hnone
        · exact absurd h (by rw [hback]; exact Bool.false_ne_true)
        · exact nomatch hnone
      · rw [List.cons_append, List.cons.injEq] at hhead
        exact ⟨hlead, words', compressed', bs', _, by rw [List.cons_append, hhead.1]⟩
    · exact (Nat.lt_succ_self _).trans_eq (runCount_convert front)
    · rw [places_append, places_append]
      rfl
    · rw [patched_append, patched_append, pieces_append, pieces_append]
      exact (same_convert hproper _).cons _
  · -- the first run stands in front of all segments
    have hnil : front = [] := by
      rcases front with _ | ⟨seg, front⟩
      · rfl
      · rw [List.cons_append, List.cons.injEq] at hhead
        rw [hhead.1, hasRun_cons] at hfront
        exact nomatch hfront
    subst hnil
    have hback : hasRun back = false := heligible.resolve_right fun h => nomatch h
    subst hlead
    refine ⟨bs, back, ?_, ⟨good_of_not_hasRun back _ _ hback, hready.balanced, fun h => ?_⟩, ?_, rfl, fun f => ?_⟩
    · exact convert_empty bs back _
    · exact absurd h (by rw [hback]; exact Bool.false_ne_true)
    · exact (Nat.lt_succ_self _).trans_eq (List.countP_cons_of_pos rfl).symm
    · exact same_data_nil _

end GnuPoc.Rcomp
