import GnuPoc.Rcomp.Collect

/-!
# GnuPoc.Rcomp.CallRuns — the compressed runs of a resource (`rcostrm.cpp`, `rcbinstr.cpp`)

The runs of a resource are known from the calls that stream it out: a string that is shorter compressed is a run, and
where the first of them does not begin the resource an empty run stands in front.  From them it is known whether
`SizeOfCompressedInteger` or `WriteCompressedInteger` comes to a length that it asserts on.
-/

namespace GnuPoc.Rcomp

open GnuPoc.Lib

/-- The bytes that a call adds at an offset, with strings as they are. -/
def Call.size (offset : ℕ) : Call → ℕ
  | .StreamIn bytes => bytes.length
  | .MakePlaceHolder n => n
  | .StartOfBlockWithSizePrefix type => GetSize type
  | .EndOfBlockWithSizePrefix => 0
  | .StreamOutCompressingIfReducesSize words => if words = [] then 0 else sizeWithPadding offset words
  | .link _ type => GetSize type

section
variable (compress : List UInt16 → Bytes) (symbianV6hack : Bool)

/-- The string that a call gives out compressed. -/
def Call.compressed? : Call → Option (List UInt16)
  | .StreamOutCompressingIfReducesSize words => if (compress words).length < 2 * words.length then some words else none
  | _ => none

/-- The bytes up to the first string that is compressed, and the runs from there on. -/
def callRuns : ℕ → List Call → ℕ × List CompressedRun
  | _, [] => (0, [])
  | offset, call :: calls =>
    let behind := callRuns (offset + call.size offset) calls
    match call.compressed? compress with
    | some words =>
      (0, ⟨compressedSize symbianV6hack words (compress words), call.size offset, behind.1⟩ :: behind.2)
    | none => (call.size offset + behind.1, behind.2)

/-- With the empty run that is put in front when bytes come before the first run. -/
def withFront (runs : ℕ × List CompressedRun) : List CompressedRun :=
  if runs.2 ≠ [] ∧ 0 < runs.1 then ⟨compressedSize symbianV6hack [] [], 0, runs.1⟩ :: runs.2 else runs.2

/-- The runs of a resource. -/
def compressedRuns (calls : List Call) : List CompressedRun :=
  withFront symbianV6hack (callRuns compress symbianV6hack 0 calls)

/-- The runs of the segments of a stream and of the calls behind. -/
def runsBehind (lead : Bytes) (segs : List Seg) (calls : List Call) : List CompressedRun :=
  let runs := segRuns symbianV6hack lead.length segs
    (callRuns compress symbianV6hack (total lead.length (pieces segs)) calls)
  withFront symbianV6hack (lead.length + runs.1, runs.2)

end

/-! ### A call on segments -/

section
variable {compress : List UInt16 → Bytes} {symbianV6hack : Bool}

theorem callRuns_plain {call : Call} (h : call.compressed? compress = none) (offset : ℕ) (calls : List Call) :
    callRuns compress symbianV6hack offset (call :: calls) =
      (call.size offset + (callRuns compress symbianV6hack (offset + call.size offset) calls).1,
        (callRuns compress symbianV6hack (offset + call.size offset) calls).2) := by
  rw [callRuns, h]

theorem total_pieces_concat (offset : ℕ) (segs : List Seg) (e : Event) (bs : Bytes) :
    total offset (pieces (segs ++ [(e, bs)])) = e.after (total offset (pieces segs)) + bs.length := by
  have happend : total offset (pieces segs ++ pieces [(e, bs)]) = total (total offset (pieces segs)) (pieces [(e, bs)]) :=
    List.foldl_append
  rw [pieces_append, happend]
  exact total_pieces_cons _ e bs []

theorem runsBehind_concat {call : Call} {e : Event} {bs : Bytes} (h : call.compressed? compress = none)
    (he : e.isRun = false) (hsize : ∀ offset, e.after offset + bs.length = offset + call.size offset) (lead : Bytes)
    (segs : List Seg) (calls : List Call) : runsBehind compress symbianV6hack lead segs (call :: calls) =
      runsBehind compress symbianV6hack lead (segs ++ [(e, bs)]) calls := by
  set offset := total lead.length (pieces segs) with hoffset
  have hle : offset ≤ e.after offset := by
    rw [Event.after, total_eq]
    exact Nat.le_add_right _ _
  have hthis := hsize offset
  have hsegs : segRuns symbianV6hack offset [(e, bs)]
      (callRuns compress symbianV6hack (e.after offset + bs.length) calls) =
      callRuns compress symbianV6hack offset (call :: calls) := by
    rw [segRuns_mark he, callRuns_plain h, hthis]
    refine Prod.ext ?_ rfl
    rw [segRuns]
    show e.after offset - offset + bs.length + _ = call.size offset + _
    omega
  unfold runsBehind
  simp only
  rw [total_pieces_concat, segRuns_append, ← hoffset, hsegs]

theorem runsBehind_streamIn {call : Call} {b : Bytes} (h : call.compressed? compress = none)
    (hsize : ∀ offset, call.size offset = b.length) (lead : Bytes) (init : List Seg) (e : Event) (bs : Bytes)
    (calls : List Call) : runsBehind compress symbianV6hack lead (init ++ [(e, bs)]) (call :: calls) =
      runsBehind compress symbianV6hack lead (init ++ [(e, bs ++ b)]) calls := by
  set offset := total lead.length (pieces init) with hoffset
  have hbehind : e.after offset + (bs ++ b).length = e.after offset + bs.length + b.length := by
    rw [List.length_append, Nat.add_assoc]
  have hsegs : segRuns symbianV6hack offset [(e, bs)]
      (callRuns compress symbianV6hack (e.after offset + bs.length) (call :: calls)) =
      segRuns symbianV6hack offset [(e, bs ++ b)]
        (callRuns compress symbianV6hack (e.after offset + (bs ++ b).length) calls) := by
    rw [callRuns_plain h, hsize, ← hbehind]
    by_cases he : e.isRun = false
    · rw [segRuns_mark he, segRuns_mark he]
      refine Prod.ext ?_ rfl
      rw [segRuns, segRuns, List.length_append]
      simp only [Nat.add_assoc]
    · obtain ⟨words, compressed, rfl⟩ := isRun_iff he
      rw [segRuns, segRuns, segRuns, segRuns, List.length_append]
      simp only [Nat.add_assoc]
  unfold runsBehind
  simp only
  rw [total_pieces_concat, total_pieces_concat, segRuns_append, segRuns_append, ← hoffset, hsegs]

theorem runsBehind_lead {call : Call} {b : Bytes} (h : call.compressed? compress = none)
    (hsize : ∀ offset, call.size offset = b.length) (lead : Bytes) (calls : List Call) :
    runsBehind compress symbianV6hack lead [] (call :: calls) =
      runsBehind compress symbianV6hack (lead ++ b) [] calls := by
  have hnil : ∀ offset, total offset (pieces []) = offset := fun _ => rfl
  unfold runsBehind
  simp only [segRuns, hnil, callRuns_plain h, hsize, List.length_append, Nat.add_assoc]

theorem segRuns_compressed {words : List UInt16} (hshort : (compress words).length < 2 * words.length) (offset : ℕ)
    (calls : List Call) :
    segRuns symbianV6hack offset [(.run words (compress words), [])] (callRuns compress symbianV6hack
      (Event.after offset (.run words (compress words)) + 0) calls) =
      callRuns compress symbianV6hack offset (.StreamOutCompressingIfReducesSize words :: calls) := by
  have hwords : words ≠ [] := by
    rintro rfl
    exact Nat.not_lt_zero _ hshort
  have hsize : (Call.StreamOutCompressingIfReducesSize words).size offset = sizeWithPadding offset words := if_neg hwords
  have hcompressed : (Call.StreamOutCompressingIfReducesSize words).compressed? compress = some words := if_pos hshort
  rw [segRuns, callRuns, hcompressed, hsize, after_run hwords, segRuns]
  simp only [List.length_nil, Nat.zero_add, Nat.add_zero]

theorem runsBehind_run {words : List UInt16} (hshort : (compress words).length < 2 * words.length) (lead : Bytes)
    (segs : List Seg) (calls : List Call) :
    runsBehind compress symbianV6hack lead segs (.StreamOutCompressingIfReducesSize words :: calls) =
      runsBehind compress symbianV6hack lead (segs ++ [(.run words (compress words), [])]) calls := by
  unfold runsBehind
  simp only
  rw [total_pieces_concat, segRuns_append, List.length_nil, segRuns_compressed hshort]

theorem buffer_le_segRuns (segs : List Seg) (rest : ℕ × List CompressedRun) : ∀ offset, hasRun segs = false →
    (buffer segs).length ≤ (segRuns symbianV6hack offset segs rest).1 := by
  induction segs with
  | nil => exact fun _ _ => Nat.zero_le _
  | cons seg segs ih =>
    rcases seg with ⟨e, bs⟩
    intro offset h
    rw [hasRun_cons, Bool.or_eq_false_iff] at h
    have hle := ih (e.after offset + bs.length) h.2
    have hbytes : e.bytes = [] := by
      cases e with
      | run words compressed => exact Bool.noConfusion h.1
      | start type => rfl
      | stop => rfl
      | align => rfl
      | enquire k => rfl
    rw [length_buffer_cons, segRuns_mark h.1, hbytes, List.length_nil]
    dsimp only
    omega

/-- The first string that is kept compressed, behind an empty run in front of what there is. -/
theorem runsBehind_first {words : List UInt16} (hshort : (compress words).length < 2 * words.length) {lead : Bytes}
    {segs : List Seg} (hnone : hasRun segs = false)
    (hsome : 0 < (lead ++ buffer segs).length ∨ ∃ type bs rest, segs = (.start type, bs) :: rest) (calls : List Call) :
    runsBehind compress symbianV6hack lead segs (.StreamOutCompressingIfReducesSize words :: calls) =
      runsBehind compress symbianV6hack [] ((.run [] [], lead) :: segs ++ [(.run words (compress words), [])]) calls := by
  rw [runsBehind_run hshort]
  obtain ⟨n, hn⟩ := @segRuns_of_not_hasRun symbianV6hack segs lead.length hnone
  have hpos : 0 < lead.length + n := by
    have hle := @buffer_le_segRuns symbianV6hack segs (0, []) lead.length hnone
    rw [hn] at hle
    rcases hsome with hsome | ⟨type, bs, rest, rfl⟩
    · rw [List.length_append] at hsome
      omega
    · have hstart := congrArg Prod.fst (hn (0, []))
      rw [segRuns_mark rfl] at hstart
      have htype : 0 < GetSize type := by cases type <;> exact Nat.succ_pos _
      have hafter : Event.after lead.length (.start type) = lead.length + GetSize type := rfl
      rw [hafter] at hstart
      dsimp only at hstart
      omega
  have hfront : Event.after 0 (.run [] []) + lead.length = lead.length := Nat.zero_add _
  have htotal : total 0 (pieces ((.run [] [], lead) :: segs ++ [(.run words (compress words), [])])) =
      total lead.length (pieces (segs ++ [(.run words (compress words), [])])) := by
    rw [List.cons_append, total_pieces_cons, hfront]
  unfold runsBehind
  simp only [List.length_nil]
  rw [htotal, List.cons_append, segRuns, segRuns_append, hfront, segRuns_append, hn, segRuns]
  simp only [withFront, ne_eq, reduceCtorEq, not_false_eq_true, true_and, Nat.add_zero, lt_irrefl, and_false, if_false]
  rw [if_pos hpos]
  rfl

/-- **A call on a stream of segments** leaves the runs as they are with the calls behind. -/
theorem perform_runs {expander : Bytes → List UInt16} {links : ℕ → DataType → Prop} {depth : ℕ} {lead : Bytes}
    {segs : List Seg} (h : Between expander links depth lead segs) (call : Call) :
    ∃ lead' segs', (streamOf lead segs).perform compress call = streamOf lead' segs' ∧ ∀ calls,
      runsBehind compress symbianV6hack lead segs (call :: calls) =
        runsBehind compress symbianV6hack lead' segs' calls := by
  have hbytes : ∀ b : Bytes, call.compressed? compress = none → (∀ offset, call.size offset = b.length) →
      ∃ lead' segs', (streamOf lead segs).StreamIn b = streamOf lead' segs' ∧ ∀ calls,
        runsBehind compress symbianV6hack lead segs (call :: calls) =
          runsBehind compress symbianV6hack lead' segs' calls := by
    intro b hplain hsize
    rcases List.eq_nil_or_concat' segs with rfl | ⟨init, ⟨e, bs⟩, rfl⟩
    · exact ⟨lead ++ b, [], streamIn_nil lead b, runsBehind_lead hplain hsize lead⟩
    · exact ⟨lead, init ++ [(e, bs ++ b)], streamIn_concat lead init e bs b,
        runsBehind_streamIn hplain hsize lead init e bs⟩
  cases call with
  | StreamIn bytes => exact hbytes bytes rfl fun _ => rfl
  | MakePlaceHolder n => exact hbytes (placeHolder n) rfl fun _ => List.length_replicate.symm
  | StartOfBlockWithSizePrefix type =>
    exact ⟨lead, segs ++ [(Event.start type, [])], appendMark_streamOf (e := .start type) rfl lead segs,
      runsBehind_concat rfl rfl (fun _ => rfl) lead segs⟩
  | EndOfBlockWithSizePrefix =>
    exact ⟨lead, segs ++ [(Event.stop, [])], appendMark_streamOf (e := .stop) rfl lead segs,
      runsBehind_concat rfl rfl (fun _ => rfl) lead segs⟩
  | link k type =>
    refine ⟨lead, segs ++ [(.enquire k, placeHolder (GetSize type))], ?_,
      runsBehind_concat rfl rfl (fun offset => ?_) lead segs⟩
    · have hmark := appendMark_streamOf (e := .enquire k) rfl lead segs
      rw [Event.type] at hmark
      show ((streamOf lead segs).EnquireStreamPositionWhenKnown k).MakePlaceHolder (GetSize type) = _
      rw [ResourceDataStream.EnquireStreamPositionWhenKnown, ResourceDataStream.MakePlaceHolder, hmark, streamIn_concat,
        List.nil_append]
      rfl
    · show offset + (placeHolder (GetSize type)).length = offset + GetSize type
      rw [placeHolder, List.length_replicate]
  | StreamOutCompressingIfReducesSize words =>
    show ∃ lead' segs', (streamOf lead segs).StreamOutCompressingIfReducesSize compress words = streamOf lead' segs' ∧ _
    unfold ResourceDataStream.StreamOutCompressingIfReducesSize
    by_cases hshort : (compress words).length < 2 * words.length
    · simp only [if_pos hshort]
      by_cases hfront : hasRun segs = true ∨ lead = [] ∧ segs = []
      · exact ⟨lead, segs ++ [(.run words (compress words), [])], run_streamOf words _ hfront,
          runsBehind_run hshort lead segs⟩
      · rw [not_or, Bool.not_eq_true, not_and] at hfront
        obtain ⟨hnone, hfront⟩ := hfront
        have hsome : 0 < (lead ++ buffer segs).length ∨ ∃ type bs rest, segs = (.start type, bs) :: rest := by
          rcases h.first with rfl | hrun | hlen | hstart
          · refine .inl ?_
            rw [List.length_append]
            exact Nat.lt_of_lt_of_le (List.length_pos_of_ne_nil fun hlead => hfront hlead rfl) (Nat.le_add_right _ _)
          · exact absurd hrun (by rw [hnone]; exact Bool.false_ne_true)
          · exact .inl hlen
          · exact .inr hstart
        exact ⟨[], (.run [] [], lead) :: segs ++ [(.run words (compress words), [])],
          first_run_streamOf words _ hnone hsome, runsBehind_first hshort hnone hsome⟩
    · have hplain : (Call.StreamOutCompressingIfReducesSize words).compressed? compress = none := if_neg hshort
      simp only [if_neg hshort]
      by_cases hne : 0 < 2 * words.length
      · have hwords : words ≠ [] := by
          rintro rfl
          exact Nat.lt_irrefl 0 hne
        rw [if_pos hne]
        refine ⟨lead, segs ++ [(.align, wordBytes words)], ?_, runsBehind_concat hplain rfl (fun offset => ?_) lead segs⟩
        · have hmark := appendMark_streamOf (e := .align) rfl lead segs
          rw [Event.type] at hmark
          rw [ResourceDataStream.TwoByteAlignmentPoint, hmark, streamIn_concat, List.nil_append]
        · show offset + offset % 2 + (wordBytes words).length =
            offset + if words = [] then 0 else sizeWithPadding offset words
          rw [if_neg hwords, length_wordBytes, sizeWithPadding]
          split
          · omega
          · omega
      · obtain rfl : words = [] := List.length_eq_zero_iff.mp (by omega)
        rw [if_neg hne]
        refine ⟨lead, segs, rfl, fun calls => ?_⟩
        have hsize : ∀ offset, (Call.StreamOutCompressingIfReducesSize []).size offset = 0 := fun _ => rfl
        unfold runsBehind
        simp only [callRuns_plain hplain, hsize, Nat.add_zero, Nat.zero_add]

theorem foldl_runs {expander : Bytes → List UInt16} {links : ℕ → DataType → Prop}
    (hcompress : ∀ words, expander (compress words) = words) (hempty : expander [] = []) :
    ∀ (calls : List Call) (depth : ℕ) (lead : Bytes) (segs : List Seg), Between expander links depth lead segs →
    Nested depth calls → (∀ k type, Call.link k type ∈ calls → links k type) →
    ∃ lead' segs', calls.foldl (ResourceDataStream.perform compress) (streamOf lead segs) = streamOf lead' segs' ∧
      Ready expander lead' segs' ∧
      runsBehind compress symbianV6hack lead segs calls = (segRuns symbianV6hack lead'.length segs' (0, [])).2
  | [], depth, lead, segs, h, hnested, _ => by
    have hdepth : depth = 0 := hnested
    subst hdepth
    refine ⟨lead, segs, rfl, h.ready, ?_⟩
    show withFront symbianV6hack (lead.length + (segRuns symbianV6hack lead.length segs (0, [])).1,
      (segRuns symbianV6hack lead.length segs (0, [])).2) = _
    by_cases hrun : hasRun segs = true
    · obtain ⟨rfl, words, compressed, bs, rest, rfl⟩ := h.front hrun
      exact if_neg fun hfront => absurd hfront.2 (Nat.lt_irrefl 0)
    · obtain ⟨n, hn⟩ := @segRuns_of_not_hasRun symbianV6hack segs lead.length (Bool.not_eq_true _ ▸ hrun)
      rw [hn]
      exact if_neg fun hfront => hfront.1 rfl
  | call :: calls, depth, lead, segs, h, hnested, hlinks => by
    obtain ⟨hdepth, hnested'⟩ := nested_cons hnested
    obtain ⟨lead₁, segs₁, hstream, h₁, -, -⟩ := h.perform hcompress hempty call hdepth
      fun k type hcall => hlinks k type (hcall ▸ List.mem_cons_self ..)
    obtain ⟨lead₁', segs₁', hstream', hruns⟩ := @perform_runs compress symbianV6hack _ _ _ _ _ h call
    obtain ⟨rfl, rfl⟩ := streamOf_inj (hstream.symm.trans hstream')
    obtain ⟨lead₂, segs₂, hrest, hready, hruns'⟩ := foldl_runs hcompress hempty calls _ lead₁ segs₁ h₁ hnested'
      fun k type hmem => hlinks k type (List.mem_cons_of_mem _ hmem)
    exact ⟨lead₂, segs₂, by rw [List.foldl_cons, hstream, hrest], hready, (hruns calls).trans hruns'⟩

end

end GnuPoc.Rcomp
