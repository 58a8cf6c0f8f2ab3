import GnuPoc.Rcomp.RunLengths

/-!
# GnuPoc.Rcomp.LengthPasses — where the passes come to a length that is too large (`rcbinstr.cpp`)

The second pass asserts on the lengths of the runs that it asks about and the third on all that it writes, and the
passes begin again when a run has gone.  They come to a length of 0x8000 exactly when one is left too long by the
runs behind it.
-/

namespace GnuPoc.Rcomp

open GnuPoc.Lib

/-! ### The second pass -/

theorem sizeOfCompressedInteger_eq {n : ℕ} (h : n < 0x8000) : SizeOfCompressedInteger n = .ok (lengthSize n) := if_pos h

/-- The lengths on either side of a run: one that is too large is asserted on, and otherwise the run is useless or
not. -/
theorem gainsNothing_run {r : CompressedRun} {isFirst isLast : Bool} (hasked : (isLast || !isFirst) = true) :
    (∃ m, gainsNothing isFirst isLast r.compressed r.uncompressed r.other = .error (.runLength m) ∧ ¬ r.Fits) ∨
      gainsNothing isFirst isLast r.compressed r.uncompressed r.other = .ok (r.useless isLast r.other) ∧ r.Fits := by
  unfold gainsNothing lengthsEitherSide CompressedRun.useless
  rw [if_pos hasked]
  by_cases hcompressed : r.compressed < 0x8000
  · rw [sizeOfCompressedInteger_eq hcompressed, run_ok_bind]
    by_cases hwritten : (!isLast || decide (0 < r.other)) = true
    · rw [if_pos hwritten, if_pos hwritten]
      by_cases hother : r.other < 0x8000
      · rw [sizeOfCompressedInteger_eq hother]
        exact .inr ⟨rfl, hcompressed, hother⟩
      · refine .inl ⟨r.other, ?_, fun hfits => hother hfits.2⟩
        rw [SizeOfCompressedInteger, if_neg hother]
        rfl
    · rw [if_neg hwritten, if_neg hwritten]
      rw [Bool.or_eq_true, not_or, decide_eq_true_eq] at hwritten
      exact .inr ⟨rfl, hcompressed, by omega⟩
  · refine .inl ⟨r.compressed, ?_, fun hfits => hcompressed hfits.1⟩
    rw [SizeOfCompressedInteger, if_neg hcompressed]
    rfl

/-- What the second pass says of the runs of segments. -/
inductive SecondRuns (symbianV6hack encountered : Bool) (i offset : ℕ) (segs : List Seg) :
    Run (Option (ℕ × Bool)) → Prop
  | tooLong (n : ℕ) (r : CompressedRun) (hr : r ∈ (segRuns symbianV6hack offset segs (0, [])).2) (h : ¬ r.Fits) :
    SecondRuns symbianV6hack encountered i offset segs (.error (.runLength n))
  | nothing (h : Kept (!encountered) (segRuns symbianV6hack offset segs (0, [])).2) :
    SecondRuns symbianV6hack encountered i offset segs (.ok none)
  | useless (front : List Seg) (words : List UInt16) (compressed bs : Bytes) (back : List Seg) (r : CompressedRun)
    (rs : List CompressedRun)
    (hsegs : segs = front ++ (.run words compressed, bs) :: back)
    (heligible : hasRun back = false ∨ (encountered || hasRun front) = true)
    (hr : segRuns symbianV6hack (total offset (pieces front)) ((.run words compressed, bs) :: back) (0, []) = (0, r :: rs))
    (hfits : r.Fits) (huseless : r.useless rs.isEmpty r.other = true) :
    SecondRuns symbianV6hack encountered i offset segs
      (.ok (some (i + markCount front, !(encountered || hasRun front) && !hasRun back)))

theorem SecondRuns.cons {symbianV6hack encountered : Bool} {i offset : ℕ} {segs : List Seg} {e : Event} {bs : Bytes}
    {result : Run (Option (ℕ × Bool))} (he : e.isRun = false)
    (h : SecondRuns symbianV6hack encountered (i + 1) (e.after offset + bs.length) segs result) :
    SecondRuns symbianV6hack encountered i offset ((e, bs) :: segs) result := by
  cases h with
  | tooLong n r hr h => exact .tooLong n r (by rw [segRuns_mark he]; exact hr) h
  | nothing h => exact .nothing (by rw [segRuns_mark he]; exact h)
  | useless front words compressed bs' back r rs hsegs heligible hr hfits huseless =>
    have hrun : hasRun ((e, bs) :: front) = hasRun front := by rw [hasRun_cons, he, Bool.false_or]
    have hcount : i + markCount ((e, bs) :: front) = i + 1 + markCount front := by
      rw [markCount_cons, he, if_neg Bool.false_ne_true, Nat.add_assoc]
    have hdone : SecondRuns symbianV6hack encountered i offset ((e, bs) :: segs) (.ok (some (i +
        markCount ((e, bs) :: front), !(encountered || hasRun ((e, bs) :: front)) && !hasRun back))) :=
      .useless _ words compressed bs' back r rs (by rw [hsegs, List.cons_append]) (by rw [hrun]; exact heligible)
        (by rw [total_pieces_cons]; exact hr) hfits huseless
    rw [hrun, hcount] at hdone
    exact hdone

theorem SecondRuns.cons_run {symbianV6hack encountered : Bool} {i offset : ℕ} {segs : List Seg} {words : List UInt16}
    {compressed bs : Bytes} {result : Run (Option (ℕ × Bool))} {r : CompressedRun} {rs : List CompressedRun}
    (hr : segRuns symbianV6hack offset ((.run words compressed, bs) :: segs) (0, []) = (0, r :: rs))
    (hkept : (rs.isEmpty || !!encountered) = true → r.useless rs.isEmpty r.other = false)
    (h : SecondRuns symbianV6hack true (i + 2) (Event.after offset (.run words compressed) + bs.length) segs result) :
    SecondRuns symbianV6hack encountered i offset ((.run words compressed, bs) :: segs) result := by
  have hrs : (segRuns symbianV6hack (Event.after offset (.run words compressed) + bs.length) segs (0, [])).2 = rs :=
    (List.cons.inj (congrArg Prod.snd hr)).2
  cases h with
  | tooLong n r' hr' h =>
    refine .tooLong n r' ?_ h
    rw [hr]
    exact List.mem_cons_of_mem _ (hrs ▸ hr')
  | nothing h =>
    refine .nothing ?_
    rw [hr]
    exact ⟨hkept, hrs ▸ h⟩
  | useless front words' compressed' bs' back r' rs' hsegs heligible hr' hfits huseless =>
    have hrun : hasRun ((.run words compressed, bs) :: front) = true := by rw [hasRun_cons]; rfl
    have hcount : i + markCount ((.run words compressed, bs) :: front) = i + 2 + markCount front := by
      rw [markCount_cons, Event.isRun, if_pos rfl, Nat.add_assoc]
    have hdone : SecondRuns symbianV6hack encountered i offset ((.run words compressed, bs) :: segs) (.ok (some (i +
        markCount ((.run words compressed, bs) :: front),
        !(encountered || hasRun ((.run words compressed, bs) :: front)) && !hasRun back))) :=
      .useless _ words' compressed' bs' back r' rs' (by rw [hsegs, List.cons_append])
        (.inr (by rw [hrun, Bool.or_true])) (by rw [total_pieces_cons]; exact hr') hfits huseless
    rw [hrun, hcount, Bool.or_true] at hdone
    rw [Bool.true_or]
    exact hdone

/-- **The second pass.**  It comes to a length that does not fit, finds a run that is useless, or keeps all. -/
theorem secondLoop_runs (expander : Bytes → List UInt16) (symbianV6hack : Bool) (used : ℕ) (fp : Lengths) :
    ∀ (segs : List Seg) (i pos offset : ℕ) (encountered : Bool) (last : Option ℕ),
      used = pos + (buffer segs).length → Good expander encountered offset segs →
      fp.lengthOfLastRun = lastRun i last segs → Filled fp.sizes fp.lengths fp.paddings i offset segs →
      fp.aSizeWhenUncompressed = total offset (pieces segs) →
      SecondRuns symbianV6hack encountered i offset segs
        (secondLoop symbianV6hack used fp i (marksOf pos segs) offset encountered)
  | [], i, pos, offset, encountered, last, _, _, _, _, hsize => by
    have hloop : secondLoop symbianV6hack used fp i (marksOf pos []) offset encountered = .ok none := by
      show (assert (fp.aSizeWhenUncompressed == offset) >>= fun _ => _) = _
      rw [hsize, show total offset (pieces []) = offset from rfl, beq_self_eq_true]
      rfl
    rw [hloop]
    exact .nothing trivial
  | (e, bs) :: segs, i, pos, offset, encountered, last, hused, hgood, hlast, hfilled, hsize => by
    rw [total_pieces_cons] at hsize
    by_cases he : e.isRun = false
    · have hpassed := @passed _ fp _ _ _ _ _ _ pos last he hgood hfilled
      rw [hpassed.buffer, List.length_append, ← Nat.add_assoc] at hused
      rw [hpassed.marks, secondLoop_mark he, hpassed.padding, run_ok_bind, hpassed.after,
        toNextMark_marksOf _ hused]
      exact SecondRuns.cons he (secondLoop_runs expander symbianV6hack used fp segs (i + 1) (pos + bs.length)
        (e.after offset + bs.length) encountered last hused hpassed.good (hlast.trans hpassed.last)
        hpassed.filled hsize)
    · obtain ⟨words, compressed, rfl⟩ := isRun_iff he
      rw [length_buffer_cons, ← Nat.add_assoc, ← Nat.add_assoc] at hused
      change used = pos + compressed.length + bs.length + _ at hused
      have hafter := after_run_eq hgood.1
      have hisLast : decide (fp.lengthOfLastRun = some (i + 1)) = !hasRun segs := by
        rw [hlast]
        exact isLast_eq i segs
      have hnext := toNextMark_marksOf .EndOfCompressedUnicodeRun hused
      have ih := secondLoop_runs expander symbianV6hack used fp segs (i + 2)
        (pos + compressed.length + bs.length) (Event.after offset (.run words compressed) + bs.length) true _ hused
        hgood.2 hlast hfilled.2 hsize
      -- the run with the numbers that the pass has for it
      set rs := (segRuns symbianV6hack (Event.after offset (.run words compressed) + bs.length) segs (0, [])).2 with hrs
      set r : CompressedRun := ⟨compressedSize symbianV6hack words compressed, sizeWithPadding offset words,
        fp.lengths (i + 1)⟩ with hrdef
      have hr : segRuns symbianV6hack offset ((.run words compressed, bs) :: segs) (0, []) = (0, r :: rs) := by
        rw [segRuns, segRuns_other, ← hfilled.1]
      have hempty : rs.isEmpty = !hasRun segs := segRuns_isEmpty segs _
      have hnumber : numberOfBytesWhenCompressed symbianV6hack words ⟨pos, .StartOfCompressedUnicodeRun words⟩
          ⟨pos + compressed.length, .EndOfCompressedUnicodeRun⟩ = r.compressed := by
        rw [numberOfBytesWhenCompressed, Nat.add_sub_cancel_left]
        rfl
      have hcheck := checkRun_eq symbianV6hack pos hgood.1
      rw [hnumber] at hcheck
      show SecondRuns _ _ _ _ _ (secondLoop symbianV6hack used fp i (⟨pos, .StartOfCompressedUnicodeRun words⟩ ::
        ⟨pos + compressed.length, .EndOfCompressedUnicodeRun⟩ :: marksOf (pos + compressed.length + bs.length) segs)
        offset encountered)
      simp only [secondLoop, hnumber, hcheck, run_ok_bind, hisLast, ← hempty]
      rw [← hafter, hnext]
      by_cases hasked : (rs.isEmpty || !!encountered) = true
      · rcases gainsNothing_run (r := r) hasked with ⟨m, hgains, hlong⟩ | ⟨hgains, hfits⟩
        · simp only [hrdef] at hgains
          rw [hgains]
          exact .tooLong m r (by rw [hr]; exact List.mem_cons_self ..) hlong
        · simp only [hrdef] at hgains
          rw [hgains, run_ok_bind]
          by_cases huseless : r.useless rs.isEmpty r.other = true
          · rw [if_pos huseless]
            have hdone : SecondRuns symbianV6hack encountered i offset ((.run words compressed, bs) :: segs)
                (.ok (some (i + markCount [], !(encountered || hasRun []) && !hasRun segs))) :=
              .useless [] words compressed bs segs r rs rfl (by
                rw [hempty] at hasked
                simp only [hasRun, List.any_nil, Bool.or_false]
                simp only [Bool.not_not, Bool.or_eq_true, Bool.not_eq_true'] at hasked
                exact hasked) hr hfits huseless
            rw [show hasRun [] = false from rfl, Bool.or_false, ← hempty] at hdone
            exact hdone
          · rw [if_neg huseless]
            exact SecondRuns.cons_run hr (fun _ => Bool.not_eq_true _ ▸ huseless) ih
      · have hgains : gainsNothing (!encountered) rs.isEmpty r.compressed r.uncompressed r.other = .ok false :=
          if_neg hasked
        simp only [hrdef] at hgains
        rw [hgains, run_ok_bind, if_neg Bool.false_ne_true]
        exact SecondRuns.cons_run hr (fun h => absurd h hasked) ih

/-! ### The third pass -/

theorem fits_iff (segs : List Seg) : ∀ offset,
    Fits offset segs ↔ ∀ r ∈ (segRuns false offset segs (0, [])).2, r.Fits := by
  induction segs with
  | nil =>
    intro offset
    exact ⟨fun _ r hr => absurd hr List.not_mem_nil, fun _ => trivial⟩
  | cons seg segs ih =>
    rcases seg with ⟨e, bs⟩
    intro offset
    cases e with
    | run words compressed =>
      rw [Fits, ih, segRuns, List.forall_mem_cons, segRuns_other, CompressedRun.Fits, and_assoc]
      rfl
    | start type => exact ih _
    | stop => exact ih _
    | align => exact ih _
    | enquire k => exact ih _

/-! ### All passes -/

theorem good_uncompressed_pos {expander : Bytes → List UInt16} {symbianV6hack : Bool} (segs : List Seg) : ∀ offset,
    Good expander true offset segs → ∀ r ∈ (segRuns symbianV6hack offset segs (0, [])).2, 0 < r.uncompressed := by
  induction segs with
  | nil => exact fun _ _ r hr => absurd hr List.not_mem_nil
  | cons seg segs ih =>
    rcases seg with ⟨e, bs⟩
    intro offset hgood
    cases e with
    | run words compressed =>
      obtain ⟨hproper, hrest⟩ := hgood
      have hwords := List.length_pos_of_ne_nil (hproper.resolve_right fun h => Bool.noConfusion h.1).words_ne
      refine List.forall_mem_cons.mpr ⟨?_, ih _ hrest⟩
      show 0 < 2 * words.length + _
      omega
    | start type => exact ih _ hgood
    | stop => exact ih _ hgood
    | align => exact ih _ hgood
    | enquire k => exact ih _ hgood

theorem good_behind {expander : Bytes → List UInt16} {words : List UInt16} {compressed bs : Bytes} {back : List Seg}
    (front : List Seg) : ∀ encountered offset,
    Good expander encountered offset (front ++ (.run words compressed, bs) :: back) →
    Good expander true (Event.after (total offset (pieces front)) (.run words compressed) + bs.length) back := by
  induction front with
  | nil => exact fun _ _ h => h.2
  | cons seg front ih =>
    rcases seg with ⟨e, b⟩
    intro encountered offset h
    rw [total_pieces_cons]
    cases e with
    | run words' compressed' => exact ih _ _ h.2
    | start type => exact ih _ _ h
    | stop => exact ih _ _ h
    | align => exact ih _ _ h
    | enquire k => exact ih _ _ h

theorem segRuns_align {symbianV6hack : Bool} {words : List UInt16} (hwords : words ≠ []) (compressed bs : Bytes)
    (back : List Seg) {offset : ℕ} {r : CompressedRun} {rs : List CompressedRun}
    (hr : segRuns symbianV6hack offset ((.run words compressed, bs) :: back) (0, []) = (0, r :: rs)) :
    segRuns symbianV6hack offset ((.align, wordBytes words ++ bs) :: back) (0, []) = (r.uncompressed + r.other, rs) := by
  have hafter := after_run hwords compressed offset
  have hsize : Event.after offset .align + (wordBytes words ++ bs).length =
      Event.after offset (.run words compressed) + bs.length := by
    rw [hafter, List.length_append, length_wordBytes, sizeWithPadding]
    show offset + offset % 2 + _ = _
    split
    · omega
    · omega
  rw [segRuns] at hr
  obtain ⟨rfl, rfl⟩ := List.cons.inj (congrArg Prod.snd hr)
  rw [segRuns_mark rfl, hsize]
  refine Prod.ext ?_ rfl
  show Event.after offset .align - offset + (wordBytes words ++ bs).length + _ =
    sizeWithPadding offset words + (bs.length + _)
  have hle : offset ≤ Event.after offset .align := Nat.le_add_right offset (offset % 2)
  omega

/-- Dropping a run changes nothing about all runs being short. -/
theorem short_convert {expander : Bytes → List UInt16} {symbianV6hack : Bool} {lead lead' : Bytes}
    {front back segs' : List Seg} {words : List UInt16} {compressed bs : Bytes} {r : CompressedRun}
    {rs : List CompressedRun} (hready : Ready expander lead (front ++ (.run words compressed, bs) :: back))
    (heligible : hasRun back = false ∨ hasRun front = true)
    (hr : segRuns symbianV6hack (total lead.length (pieces front)) ((.run words compressed, bs) :: back) (0, []) =
      (0, r :: rs)) (hfits : r.Fits) (huseless : r.useless rs.isEmpty r.other = true)
    (hconvert : ResourceDataStream.ConvertCompressedRunToUncompressed
      { streamOf lead (front ++ (.run words compressed, bs) :: back) with
        iContainsCompressedUnicode := hasRun front || hasRun back } (markCount front) = .ok (streamOf lead' segs')) :
    Short (segRuns symbianV6hack lead.length (front ++ (.run words compressed, bs) :: back) (0, [])).2 ↔
      Short (segRuns symbianV6hack lead'.length segs' (0, [])).2 := by
  have hrs : (segRuns symbianV6hack (Event.after (total lead.length (pieces front)) (.run words compressed) + bs.length)
      back (0, [])).2 = rs := (List.cons.inj (congrArg Prod.snd hr)).2
  have hempty : rs.isEmpty = !hasRun back := by rw [← hrs, segRuns_isEmpty]
  have hpos := @good_uncompressed_pos expander symbianV6hack back _ (good_behind front _ _ hready.good)
  rw [hrs] at hpos
  have hall : hasRun (front ++ (.run words compressed, bs) :: back) = true := by
    rw [hasRun_append, hasRun_cons]
    exact Bool.or_true _
  obtain ⟨hlead, words', compressed', bs', rest, hhead⟩ := hready.front hall
  -- the only run that there is
  have honly : hasRun front = false → Short (segRuns symbianV6hack lead.length
      (front ++ (.run words compressed, bs) :: back) (0, [])).2 := by
    intro hfront
    have hback : hasRun back = false := heligible.resolve_right fun h => Bool.false_ne_true (hfront.symm.trans h)
    obtain rfl : rs = [] := List.isEmpty_iff.mp (by rw [hempty, hback]; rfl)
    obtain ⟨n, hn⟩ := @segRuns_of_not_hasRun symbianV6hack front lead.length hfront
    rw [segRuns_append, hn, hr]
    exact ⟨hfits.1, hfits.2, trivial⟩
  have hnone : ∀ {segs : List Seg} {offset : ℕ}, hasRun segs = false →
      Short (segRuns symbianV6hack offset segs (0, [])).2 := by
    intro segs offset h
    obtain ⟨n, hn⟩ := @segRuns_of_not_hasRun symbianV6hack segs offset h
    rw [hn]
    trivial
  rcases good_run front _ _ hready.good with hproper | ⟨hfront, rfl, rfl⟩
  · have hrun : hasRun (front ++ (.align, wordBytes words ++ bs) :: back) = (hasRun front || hasRun back) := by
      rw [hasRun_append, hasRun_cons]
      rfl
    rw [convert_eq hproper.length_pos hproper.shorter.le, ← hrun] at hconvert
    obtain ⟨rfl, rfl⟩ := streamOf_inj (Except.ok.inj hconvert)
    have halign := segRuns_align hproper.words_ne compressed bs back hr
    cases hfront : hasRun front with
    | true =>
      obtain ⟨n, pre, q, hn⟩ := @segRuns_of_hasRun symbianV6hack front lead.length hfront
      rw [segRuns_append, segRuns_append, hr, halign, hn, hn]
      exact short_absorb hpos huseless hfits.1 pre
    | false =>
      have hback : hasRun back = false := heligible.resolve_right fun h => Bool.false_ne_true (hfront.symm.trans h)
      exact iff_of_true (honly hfront) (hnone (by rw [hrun, hfront, hback]; rfl))
  · -- the first run stands in front of all segments
    have hnil : front = [] := by
      rcases front with _ | ⟨seg, front⟩
      · rfl
      · rw [List.cons_append, List.cons.injEq] at hhead
        rw [hhead.1, hasRun_cons] at hfront
        exact Bool.noConfusion hfront
    subst hnil
    have hback : hasRun back = false := heligible.resolve_right Bool.false_ne_true
    subst hlead
    have hempty' := convert_empty bs back (hasRun [] || hasRun back)
    obtain ⟨rfl, rfl⟩ := streamOf_inj (Except.ok.inj (hempty'.symm.trans hconvert))
    exact iff_of_true (honly hfront) (hnone hback)

/-- Where every string is kept with the length it has, a run gains nothing. -/
theorem kept_hack (segs : List Seg) : ∀ (isFirst : Bool) (offset : ℕ), Kept isFirst (segRuns true offset segs (0, [])).2 →
    hasRun segs = false := by
  induction segs with
  | nil => exact fun _ _ _ => rfl
  | cons seg segs ih =>
    rcases seg with ⟨e, bs⟩
    intro isFirst offset h
    by_cases he : e.isRun = false
    · rw [segRuns_mark he] at h
      rw [hasRun_cons, he, Bool.false_or]
      exact ih _ _ h
    · obtain ⟨words, compressed, rfl⟩ := isRun_iff he
      obtain ⟨hkept, hrest⟩ := h
      have hnone := ih _ _ hrest
      have hle := sizeWithPadding_le offset words
      have hempty : (segRuns true (Event.after offset (.run words compressed) + bs.length) segs (0, [])).2.isEmpty = true := by
        rw [segRuns_isEmpty, hnone]
        rfl
      have huseless := hkept (by rw [hempty]; rfl)
      rw [CompressedRun.useless, decide_eq_false_iff_not] at huseless
      exact absurd (Nat.le_trans hle (by
        show _ ≤ lengthSize (compressedSize true words compressed) + compressedSize true words compressed + _
        rw [compressedSize, if_pos rfl]
        omega)) huseless

/-- **The passes end**: each round has a run less, and the layout stays as it is.  They come to a length that is too large
exactly when one is left so by the runs that are useless. -/
theorem streamOut_done {expander : Bytes → List UInt16} {symbianV6hack : Bool} (file : Bytes) :
    ∀ (fuel : ℕ) (lead : Bytes) (segs : List Seg), runCount segs < fuel → Ready expander lead segs →
    (¬ Short (segRuns symbianV6hack lead.length segs (0, [])).2 ∧
      ∃ m, StreamOutReturningWhetherContainsCompressedUnicode symbianV6hack false fuel (streamOf lead segs)
        (.atEnd file) = .error (.runLength m)) ∨
    Short (segRuns symbianV6hack lead.length segs (0, [])).2 ∧
    ∃ out lead' segs', StreamOutReturningWhetherContainsCompressedUnicode symbianV6hack false fuel
      (streamOf lead segs) (.atEnd file) = .ok out ∧
      Written expander symbianV6hack file lead segs out lead' segs'
  | 0, _, _, hfuel, _ => absurd hfuel (Nat.not_lt_zero _)
  | fuel + 1, lead, segs, hfuel, hready => by
    obtain ⟨fp, hfirst, hknown⟩ := firstPass_known symbianV6hack hready
    have hruns := secondLoop_runs expander symbianV6hack (lead ++ buffer segs).length fp segs 0 lead.length
      lead.length false none List.length_append hready.good hknown.lengthOfLastRun hknown.filled
      hknown.aSizeWhenUncompressed
    have hpass : secondPass symbianV6hack (streamOf lead segs) fp = secondLoop symbianV6hack
        (lead ++ buffer segs).length fp 0 (marksOf lead.length segs) lead.length false := by
      unfold secondPass
      simp only [ResourceDataStream.iNumberOfBytesUsed, streamOf, before_marksOf]
    rw [StreamOutReturningWhetherContainsCompressedUnicode, hfirst, run_ok_bind, hpass]
    generalize secondLoop symbianV6hack (lead ++ buffer segs).length fp 0 (marksOf lead.length segs) lead.length
      false = result at hruns
    cases hruns with
    | tooLong n r hr hlong => exact .inl ⟨fun hshort => hlong (hshort.fits r hr), n, rfl⟩
    | nothing hkept =>
      have hv : symbianV6hack = true → hasRun segs = false := by
        rintro rfl
        exact kept_hack segs _ _ hkept
      have hfits : Fits lead.length segs ↔ ∀ r ∈ (segRuns symbianV6hack lead.length segs (0, [])).2, r.Fits := by
        cases symbianV6hack with
        | false => exact fits_iff segs _
        | true =>
          obtain ⟨n, hn⟩ := @segRuns_of_not_hasRun true segs lead.length (hv rfl)
          obtain ⟨n', hn'⟩ := @segRuns_of_not_hasRun false segs lead.length (hv rfl)
          rw [fits_iff, hn, hn']
      rcases thirdPass_done file hready hknown hv with ⟨hlong, m, hthird⟩ | ⟨out, hthird, hwritten⟩
      · exact .inl ⟨fun hshort => hlong (hfits.mpr hshort.fits), m, hthird⟩
      · exact .inr ⟨short_of_kept hkept (hfits.mp hwritten.fits), out, lead, segs, hthird, hwritten⟩
    | useless front words compressed bs back r rs hsegs heligible hr hfits huseless =>
      subst hsegs
      rw [Bool.false_or] at heligible
      obtain ⟨lead', segs', hconvert, hready', hcount, hplaces, hsame⟩ := convert_done hready heligible
      have hflag : (hasRun (front ++ (.run words compressed, bs) :: back) && !(!(false || hasRun front) &&
          !hasRun back)) = (hasRun front || hasRun back) := by
        rw [hasRun_append, hasRun_cons, Bool.false_or, Event.isRun, Bool.true_or, Bool.or_true, Bool.true_and,
          Bool.not_and, Bool.not_not, Bool.not_not]
      have hnext : ResourceDataStream.ConvertCompressedRunToUncompressed
          { streamOf lead (front ++ (.run words compressed, bs) :: back) with
            iContainsCompressedUnicode := hasRun (front ++ (.run words compressed, bs) :: back) &&
              !(!(false || hasRun front) && !hasRun back) } (0 + markCount front) = .ok (streamOf lead' segs') := by
        rw [hflag, Nat.zero_add, hconvert]
      rw [short_convert hready heligible hr hfits huseless hconvert]
      simp only [run_ok_bind]
      show (_ ∧ ∃ m, (ResourceDataStream.ConvertCompressedRunToUncompressed
          { streamOf lead (front ++ (.run words compressed, bs) :: back) with
            iContainsCompressedUnicode := hasRun (front ++ (.run words compressed, bs) :: back) &&
              !(!(false || hasRun front) && !hasRun back) } (0 + markCount front) >>= _) = _) ∨
        _ ∧ ∃ out lead'' segs'', (ResourceDataStream.ConvertCompressedRunToUncompressed
          { streamOf lead (front ++ (.run words compressed, bs) :: back) with
            iContainsCompressedUnicode := hasRun (front ++ (.run words compressed, bs) :: back) &&
              !(!(false || hasRun front) && !hasRun back) } (0 + markCount front) >>= _) = _ ∧ _
      rw [hnext, run_ok_bind]
      rcases streamOut_done file fuel lead' segs' (by omega) hready' with hlong |
        ⟨hshort, out, lead'', segs'', hout, hwritten⟩
      · exact .inl hlong
      · exact .inr ⟨hshort, out, lead'', segs'', hout, hwritten.ready, fun f => (hsame f).trans (hwritten.same f),
          hwritten.places.trans hplaces, hwritten.plain, hwritten.fits, hwritten.out⟩

end GnuPoc.Rcomp
