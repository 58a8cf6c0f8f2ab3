import GnuPoc.Rcomp.CallRuns

/-!
# GnuPoc.Rcomp.Expand — reading compressed resource data

The data of a resource that contains compressed Unicode alternates between compressed runs and other ones,
each behind its length.  `expand` takes it apart again; the result is the uncompressed layout.
-/

namespace GnuPoc.Rcomp

open GnuPoc.Lib

def cut (n : ℕ) (bytes : Bytes) : Option (Bytes × Bytes) :=
  if bytes.length < n then none else some (bytes.take n, bytes.drop n)

/-- A run behind its length. -/
def takeRun : Bytes → Option (Bytes × Bytes)
  | [] => none
  | a :: rest =>
    if a.toNat < 0x80 then cut a.toNat rest
    else match rest with
      | [] => none
      | b :: rest => cut ((a.toNat - 0x80) * 0x100 + b.toNat) rest

/-- A string that is expanded begins at an even offset; an empty run is nothing. -/
def expandString (expander : Bytes → List UInt16) (out compressed : Bytes) : Bytes :=
  if compressed = [] then out else out ++ padding out.length ++ wordBytes (expander compressed)

def expandRuns (expander : Bytes → List UInt16) : ℕ → Bytes → Bytes → Option Bytes
  | _, out, [] => some out
  | 0, _, _ => none
  | fuel + 1, out, bytes => do
    let (compressed, rest) ← takeRun bytes
    if rest = [] then some (expandString expander out compressed)
    else do
      let (other, rest) ← takeRun rest
      expandRuns expander fuel (expandString expander out compressed ++ other) rest

def expand (expander : Bytes → List UInt16) (bytes : Bytes) : Option Bytes :=
  expandRuns expander bytes.length [] bytes

/-! ### Lengths -/

theorem takeRun_compressedInteger {run rest : Bytes} (h : run.length < 0x8000) :
    takeRun (compressedInteger run.length ++ (run ++ rest)) = some (run, rest) := by
  have hcut : cut run.length (run ++ rest) = some (run, rest) := by
    rw [cut, if_neg (by rw [List.length_append]; omega), List.take_left, List.drop_left]
  unfold compressedInteger
  split
  case isTrue hlong =>
    have ha : (UInt8.ofNat (run.length / 0x100 + 0x80)).toNat = run.length / 0x100 + 0x80 := by
      rw [UInt8.toNat_ofNat', Nat.mod_eq_of_lt (by omega)]
    have hb : (UInt8.ofNat (run.length % 0x100)).toNat = run.length % 0x100 := by
      rw [UInt8.toNat_ofNat', Nat.mod_eq_of_lt (by omega)]
    have hn : (run.length / 0x100 + 0x80 - 0x80) * 0x100 + run.length % 0x100 = run.length := by omega
    show takeRun (_ :: _ :: (run ++ rest)) = _
    simp only [takeRun, ha, hb, hn, if_neg (show ¬ run.length / 0x100 + 0x80 < 0x80 by omega), hcut]
  case isFalse hshort =>
    have ha : (UInt8.ofNat run.length).toNat = run.length := by
      rw [UInt8.toNat_ofNat', Nat.mod_eq_of_lt (by omega)]
    show takeRun (_ :: (run ++ rest)) = _
    simp only [takeRun, ha, if_pos (show run.length < 0x80 by omega), hcut]

theorem compressedInteger_ne (n : ℕ) : compressedInteger n ≠ [] := by
  unfold compressedInteger
  split
  · exact List.cons_ne_nil _ _
  · exact List.cons_ne_nil _ _

/-! ### What is written between runs -/

theorem layout_cons {e : Event} (he : e.isRun = false) (offset : ℕ) (bs : Bytes) (segs : List Seg) :
    layout offset (pieces ((e, bs) :: segs)) =
      e.emit offset bs segs ++ bs ++ layout (e.after offset + bs.length) (pieces segs) := by
  rw [pieces_cons]
  cases e with
  | run words compressed => exact Bool.noConfusion he
  | start type =>
    show layout offset (.start type :: .data bs :: pieces segs) = _
    rw [layout, layout, ← List.append_assoc]
    rfl
  | stop => rfl
  | align =>
    show layout offset (.align :: .data bs :: pieces segs) = _
    rw [layout, layout, ← List.append_assoc]
    rfl
  | enquire k => rfl

theorem layout_run {words : List UInt16} (h : words ≠ []) (compressed : Bytes) (offset : ℕ) (bs : Bytes)
    (segs : List Seg) : layout offset (pieces ((.run words compressed, bs) :: segs)) =
      padding offset ++ wordBytes words ++ bs ++
        layout (Event.after offset (.run words compressed) + bs.length) (pieces segs) := by
  rw [pieces_cons, Event.pieces, text, if_neg h, Event.after, Event.pieces, text, if_neg h]
  show layout offset (.align :: .data (wordBytes words) :: .data bs :: pieces segs) = _
  rw [layout, layout, layout]
  simp only [List.append_assoc]
  rfl

theorem length_emit {e : Event} (he : e.isRun = false) (offset : ℕ) (bs : Bytes) (segs : List Seg) :
    offset + (e.emit offset bs segs).length = e.after offset := by
  cases e with
  | run words compressed => exact Bool.noConfusion he
  | start type =>
    rw [Event.emit, NumericValue.length_iData]
    rfl
  | stop => rfl
  | align =>
    rw [Event.emit, length_padding]
    rfl
  | enquire k => rfl

/-- The segments up to the next run: as many bytes as were counted, and what they are laid out as. -/
structure UpToRun (expander : Bytes → List UInt16) (encountered : Bool) (offset : ℕ) (segs : List Seg)
    (other : Bytes) (rest : List Seg) : Prop where
  emit : emit offset segs = other ++ emit (offset + other.length) rest
  layout : layout offset (pieces segs) = other ++ layout (offset + other.length) (pieces rest)
  length : other.length = otherLength offset segs
  hasRun : hasRun segs = hasRun rest
  run : rest = [] ∨ ∃ words compressed bs tail, rest = (.run words compressed, bs) :: tail
  good : Good expander encountered (offset + other.length) rest
  fits : Fits (offset + other.length) rest

variable {expander : Bytes → List UInt16} (segs : List Seg)

/-- What stands in front of the next run, and how it is expanded. -/
theorem upToRun {encountered : Bool} (segs : List Seg) : ∀ offset,
    Good expander encountered offset segs → Fits offset segs →
    ∃ other rest, UpToRun expander encountered offset segs other rest := by
  induction segs with
  | nil => exact fun offset _ _ => ⟨[], [], rfl, rfl, rfl, rfl, .inl rfl, trivial, trivial⟩
  | cons seg segs ih =>
    rcases seg with ⟨e, bs⟩
    intro offset hgood hfits
    by_cases he : e.isRun = false
    · have hgood' : Good expander encountered (e.after offset + bs.length) segs := by
        cases e with
        | run words compressed => exact Bool.noConfusion he
        | start type => exact hgood
        | stop => exact hgood
        | align => exact hgood
        | enquire k => exact hgood
      have hfits' : Fits (e.after offset + bs.length) segs := by
        cases e with
        | run words compressed => exact Bool.noConfusion he
        | start type => exact hfits
        | stop => exact hfits
        | align => exact hfits
        | enquire k => exact hfits
      obtain ⟨other, rest, h⟩ := ih _ hgood' hfits'
      have hlen := length_emit he offset bs segs
      have hoffset : offset + (e.emit offset bs segs ++ bs ++ other).length =
          e.after offset + bs.length + other.length := by
        rw [List.length_append, List.length_append]
        omega
      refine ⟨e.emit offset bs segs ++ bs ++ other, rest, ?_, ?_, ?_, ?_, h.run, ?_, ?_⟩
      · rw [hoffset, Rcomp.emit, h.emit]
        simp only [List.append_assoc]
      · rw [hoffset, layout_cons he, h.layout]
        simp only [List.append_assoc]
      · have hother : otherLength offset ((e, bs) :: segs) =
            e.after offset - offset + bs.length + otherLength (e.after offset + bs.length) segs := by
          cases e with
          | run words compressed => exact Bool.noConfusion he
          | start type => rfl
          | stop => rfl
          | align => rfl
          | enquire k => rfl
        rw [hother, ← h.length, List.length_append, List.length_append]
        omega
      · rw [hasRun_cons, he, Bool.false_or, h.hasRun]
      · rw [hoffset]
        exact h.good
      · rw [hoffset]
        exact h.fits
    · obtain ⟨words, compressed, rfl⟩ : ∃ words compressed, e = .run words compressed := by
        cases e with
        | run words compressed => exact ⟨words, compressed, rfl⟩
        | start type => exact absurd rfl he
        | stop => exact absurd rfl he
        | align => exact absurd rfl he
        | enquire k => exact absurd rfl he
      exact ⟨[], _, rfl, rfl, rfl, rfl, .inr ⟨words, compressed, bs, segs, rfl⟩, hgood, hfits⟩

theorem expandString_run {encountered : Bool} {words : List UInt16}
    {compressed : Bytes} (out bs : Bytes) (segs : List Seg)
    (h : Proper expander words compressed ∨ encountered = false ∧ out.length = 0 ∧ words = [] ∧ compressed = []) :
    (expandString expander out compressed).length = Event.after out.length (.run words compressed) ∧
      out ++ layout out.length (pieces ((.run words compressed, bs) :: segs)) =
        expandString expander out compressed ++ (bs ++
          layout (Event.after out.length (.run words compressed) + bs.length) (pieces segs)) := by
  rcases h with h | ⟨-, -, rfl, rfl⟩
  · rw [expandString, if_neg h.nonempty, h.expands, layout_run h.words_ne, after_run h.words_ne]
    refine ⟨?_, ?_⟩
    · rw [List.length_append, List.length_append, length_padding, length_wordBytes, sizeWithPadding]
      split
      · omega
      · omega
    · simp only [List.append_assoc]
  · refine ⟨rfl, ?_⟩
    rw [expandString, if_pos rfl]
    rfl

section
variable {expander : Bytes → List UInt16} {encountered : Bool} {out : Bytes} {words : List UInt16}
  {compressed bs : Bytes} {tail : List Seg}

theorem emit_run {other : Bytes} {rest : List Seg}
    (h : UpToRun expander true (Event.after out.length (.run words compressed) + bs.length) tail other rest) :
    emit out.length ((.run words compressed, bs) :: tail) = compressedInteger compressed.length ++
      (compressed ++ (behindRun tail (bs ++ other).length ++ ((bs ++ other) ++
        emit (Event.after out.length (.run words compressed) + bs.length + other.length) rest))) := by
  rw [emit, Event.emit, h.emit, List.length_append, h.length]
  simp only [List.append_assoc]

theorem expandRuns_run {other : Bytes} {rest : List Seg} (fuel : ℕ)
    (h : UpToRun expander true (Event.after out.length (.run words compressed) + bs.length) tail other rest)
    (hfits : Fits out.length ((.run words compressed, bs) :: tail))
    (ih : expandRuns expander fuel (expandString expander out compressed ++ (bs ++ other))
      (emit (Event.after out.length (.run words compressed) + bs.length + other.length) rest) =
        some (expandString expander out compressed ++ (bs ++ other) ++
          layout (Event.after out.length (.run words compressed) + bs.length + other.length) (pieces rest))) :
    expandRuns expander (fuel + 1) out (emit out.length ((.run words compressed, bs) :: tail)) =
      some (expandString expander out compressed ++ (bs ++
        layout (Event.after out.length (.run words compressed) + bs.length) (pieces tail))) := by
  set behind := emit (Event.after out.length (.run words compressed) + bs.length + other.length) rest with hbehind
  have hothers : (bs ++ other).length < 0x8000 := by
    rw [List.length_append, h.length]
    exact hfits.2.1
  have htake := @takeRun_compressedInteger compressed
    (behindRun tail (bs ++ other).length ++ ((bs ++ other) ++ behind)) hfits.1
  have hne : compressedInteger compressed.length ++ (compressed ++ (behindRun tail (bs ++ other).length ++
      ((bs ++ other) ++ behind))) ≠ [] := List.append_ne_nil_of_left_ne_nil (compressedInteger_ne _) _
  rw [emit_run h, ← hbehind, h.layout, expandRuns, htake]
  · simp only [Option.bind_eq_bind, Option.bind_some]
    by_cases hwritten : (hasRun tail || decide (0 < (bs ++ other).length)) = true
    · rw [behindRun, if_pos hwritten, if_neg (List.append_ne_nil_of_left_ne_nil (compressedInteger_ne _) _),
        takeRun_compressedInteger hothers]
      simp only [Option.bind_some]
      rw [ih]
      simp only [List.append_assoc]
    · -- nothing at all stands behind the run
      have hwritten' := hwritten
      rw [Bool.or_eq_true, not_or, decide_eq_true_eq, Bool.not_eq_true] at hwritten'
      have hnil : bs ++ other = [] := List.length_eq_zero_iff.mp (by omega)
      have hrest : rest = [] := by
        rcases h.run with hr | ⟨words', compressed', bs', tail', rfl⟩
        · exact hr
        · have hrun := h.hasRun
          rw [hwritten'.1, hasRun_cons] at hrun
          exact Bool.noConfusion hrun
      obtain ⟨hbs, hother⟩ := List.append_eq_nil_iff.mp hnil
      rw [hbehind, behindRun, if_neg hwritten, hbs, hother, hrest]
      simp [emit, pieces, layout]
  · exact hne

end

/-- **Expanding.**  What is written for segments that begin with a run expands to their layout. -/
theorem expandRuns_emit (expander : Bytes → List UInt16) (fuel : ℕ) : ∀ (encountered : Bool) (out : Bytes)
    (segs : List Seg), (emit out.length segs).length ≤ fuel →
    (segs = [] ∨ ∃ words compressed bs tail, segs = (.run words compressed, bs) :: tail) →
    Good expander encountered out.length segs → Fits out.length segs →
    expandRuns expander fuel out (emit out.length segs) = some (out ++ layout out.length (pieces segs)) := by
  induction fuel with
  | zero =>
    rintro encountered out segs hfuel (rfl | ⟨words, compressed, bs, tail, rfl⟩) - -
    · show some out = some (out ++ [])
      rw [List.append_nil]
    · rw [emit, Event.emit] at hfuel
      have hpos := List.length_pos_of_ne_nil (compressedInteger_ne compressed.length)
      simp only [List.length_append] at hfuel
      omega
  | succ fuel ih =>
    rintro encountered out segs hfuel (rfl | ⟨words, compressed, bs, tail, rfl⟩) hgood hfits
    · show some out = some (out ++ [])
      rw [List.append_nil]
    · obtain ⟨other, rest, hrest⟩ := @upToRun expander _ tail _ hgood.2 hfits.2.2
      obtain ⟨hlen, hlayout⟩ := expandString_run out bs tail hgood.1
      have hout : (expandString expander out compressed ++ (bs ++ other)).length =
          Event.after out.length (.run words compressed) + bs.length + other.length := by
        rw [List.length_append, List.length_append, hlen, Nat.add_assoc]
      have hpos := List.length_pos_of_ne_nil (compressedInteger_ne compressed.length)
      rw [emit_run hrest] at hfuel
      simp only [List.length_append] at hfuel
      have hnext := ih true (expandString expander out compressed ++ (bs ++ other)) rest (by rw [hout]; omega)
        hrest.run (by rw [hout]; exact hrest.good) (by rw [hout]; exact hrest.fits)
      rw [hout] at hnext
      rw [hlayout]
      exact expandRuns_run fuel hrest hfits hnext

theorem emit_of_not_hasRun : ∀ offset, hasRun segs = false → emit offset segs = layout offset (pieces segs) := by
  induction segs with
  | nil => exact fun _ _ => rfl
  | cons seg segs ih =>
    rcases seg with ⟨e, bs⟩
    intro offset h
    rw [hasRun_cons, Bool.or_eq_false_iff] at h
    rw [layout_cons h.1, emit, ih _ h.2]

/-! ### The stream gives out the layout -/

theorem runCount_le : runCount segs ≤ (marksOf 0 segs).length := by
  induction segs with
  | nil => exact le_rfl
  | cons seg segs ih =>
    rcases seg with ⟨e, bs⟩
    have hcount := markCount_cons e bs segs
    rw [runCount, List.countP_cons, ← runCount]
    show _ ≤ markCount ((e, bs) :: segs)
    rw [hcount]
    have : runCount segs ≤ markCount segs := ih
    cases e.isRun with
    | true =>
      simp only [if_true]
      omega
    | false =>
      simp only [Bool.false_eq_true, if_false]
      omega

theorem patched_id : patched (fun _ bs => bs) segs = segs := by
  have hseg : ∀ seg : Seg, Seg.patch (fun _ bs => bs) seg = seg := by
    rintro ⟨e, bs⟩
    cases e with
    | enquire k => rfl
    | start type => rfl
    | stop => rfl
    | run words compressed => rfl
    | align => rfl
  rw [patched, List.map_congr_left fun seg _ => hseg seg, List.map_id']

/-- What `StreamOutReturningWhetherContainsCompressedUnicode` gives for a resource whose uncompressed layout is
`whole`. -/
structure GivesOut (expander : Bytes → List UInt16) (symbianV6hack : Bool) (file whole : Bytes) (out : StreamedOut) :
    Prop where
  aSizeWhenUncompressed : out.aSizeWhenUncompressed = whole.length
  written : ∃ bytes, out.aStream = .atEnd (file ++ bytes) ∧
    (out.containsCompressedUnicode = true → expand expander bytes = some whole) ∧
    (out.containsCompressedUnicode = false → bytes = whole)
  plain : symbianV6hack = true → out.containsCompressedUnicode = false

theorem Written.givesOut {symbianV6hack : Bool} {file lead lead' : Bytes}
    {segs segs' : List Seg} {out : StreamedOut} (h : Written expander symbianV6hack file lead segs out lead' segs') :
    GivesOut expander symbianV6hack file (layout 0 (.data lead :: pieces segs)) out := by
  have hwhole : layout 0 (.data lead :: pieces segs) = lead' ++ layout lead'.length (pieces segs') := by
    have hsame := (h.same (fun _ bs => bs) 0).1
    rw [patched_id, patched_id] at hsame
    rw [hsame, layout, Nat.zero_add]
  rw [hwhole, h.out]
  refine ⟨?_, ⟨lead' ++ emit lead'.length segs', by rw [List.append_assoc], fun hrun => ?_, fun hrun => ?_⟩, h.plain⟩
  · show total lead'.length (pieces segs') = _
    rw [total_eq, List.length_append]
  · obtain ⟨rfl, words, compressed, bs, rest, rfl⟩ := h.ready.front hrun
    exact expandRuns_emit expander _ false [] _ le_rfl (.inr ⟨words, compressed, bs, rest, rfl⟩) h.ready.good h.fits
  · rw [emit_of_not_hasRun segs' _ hrun]

/-- The bytes of a link that no one has overwritten. -/
def unlinked (_ : ℕ) (type : DataType) : Bytes := placeHolder (GetSize type)

theorem between_empty (expander : Bytes → List UInt16) (links : ℕ → DataType → Prop) :
    Between expander links 0 [] [] :=
  ⟨trivial, rfl, fun h => absurd h Bool.false_ne_true, .inl rfl, fun _ _ h => absurd h List.not_mem_nil⟩

/-- Nested calls give a row of segments that is ready for the passes. -/
theorem collect_segments {compress : List UInt16 → Bytes}
    (hcompress : ∀ words, expander (compress words) = words) (hempty : expander [] = []) {calls : List Call}
    (hnested : Nested 0 calls) :
    ∃ lead segs, ResourceDataStream.collect compress calls = streamOf lead segs ∧ Ready expander lead segs ∧
      (∀ symbianV6hack, (segRuns symbianV6hack lead.length segs (0, [])).2 = compressedRuns compress symbianV6hack calls) ∧
      (places segs).map Prod.fst = calls.flatMap Call.keys ∧
      (∀ k bs, (k, bs) ∈ places segs → ∃ type rest, Call.link k type ∈ calls ∧
        bs = placeHolder (GetSize type) ++ rest) ∧
      ∀ (f : ℕ → Bytes → Bytes) (sites : ℕ → DataType → Bytes),
        (∀ k type, Call.link k type ∈ calls → ∀ rest, f k (placeHolder (GetSize type) ++ rest) = sites k type ++ rest) →
        Same (callPieces sites calls) (.data lead :: pieces (patched f segs)) := by
  have hbegin := between_empty expander fun k type => Call.link k type ∈ calls
  obtain ⟨lead, segs, hstream, hbetween, hkeys, hsame⟩ := collect_reached hcompress hempty calls 0 [] [] hbegin hnested
    fun _ _ h => h
  refine ⟨lead, segs, hstream, hbetween.ready, fun symbianV6hack => ?_, hkeys, fun k bs hmem => ?_,
    fun f sites hf => ?_⟩
  · obtain ⟨lead', segs', hstream', -, hruns⟩ := @foldl_runs compress symbianV6hack _ _ hcompress hempty calls 0 [] []
      hbegin hnested fun _ _ h => h
    obtain ⟨rfl, rfl⟩ := streamOf_inj (hstream.symm.trans hstream')
    rw [← hruns, runsBehind, compressedRuns]
    simp only [segRuns, List.length_nil, Nat.zero_add]
    rfl
  · obtain ⟨⟨e, bs'⟩, hseg, he⟩ := List.mem_filterMap.mp hmem
    cases e with
    | enquire k' =>
      cases he
      exact hbetween.places k bs hseg
    | start type => exact absurd he (by simp)
    | stop => exact absurd he (by simp)
    | run words compressed => exact absurd he (by simp)
    | align => exact absurd he (by simp)
  · have h := hsame f sites hf []
    rw [List.append_nil, List.append_nil] at h
    exact (same_data_nil _).symm.trans h

/-- **The stream gives out the uncompressed layout**: the passes end, and expanding what they write gives the layout of
the calls, exactly if every run is short. -/
theorem streamOut_calls {compress : List UInt16 → Bytes}
    (hcompress : ∀ words, expander (compress words) = words) (hempty : expander [] = [])
    (symbianV6hack : Bool) {calls : List Call} (hnested : Nested 0 calls) (file : Bytes) {fuel : ℕ}
    (hfuel : (ResourceDataStream.collect compress calls).iArrayOfMarks.length < fuel) :
    (¬ Short (compressedRuns compress symbianV6hack calls) ∧
      ∃ m, StreamOutReturningWhetherContainsCompressedUnicode symbianV6hack false fuel
        (ResourceDataStream.collect compress calls) (.atEnd file) = .error (.runLength m)) ∨
    Short (compressedRuns compress symbianV6hack calls) ∧
    ∃ out, StreamOutReturningWhetherContainsCompressedUnicode symbianV6hack false fuel
      (ResourceDataStream.collect compress calls) (.atEnd file) = .ok out ∧
      GivesOut expander symbianV6hack file (layout 0 (callPieces unlinked calls)) out := by
  obtain ⟨lead, segs, hstream, hready, hruns, -, -, hsame⟩ := collect_segments hcompress hempty hnested
  have hcount : runCount segs < fuel := by
    have hle := runCount_le segs
    rw [hstream] at hfuel
    have hmarks : (streamOf lead segs).iArrayOfMarks.length = (marksOf 0 segs).length := length_marksOf segs _
    omega
  have hlayout : layout 0 (callPieces unlinked calls) = layout 0 (.data lead :: pieces segs) := by
    have h := (hsame (fun _ bs => bs) unlinked (fun _ _ _ _ => rfl) 0).1
    rw [patched_id] at h
    exact h
  rw [hstream, hlayout, ← hruns]
  rcases streamOut_done file fuel lead segs hcount hready with hlong | ⟨hshort, out, lead', segs', hout, hwritten⟩
  · exact .inl hlong
  · exact .inr ⟨hshort, out, hout, hwritten.givesOut⟩

theorem GivesOut.unique {symbianV6hack : Bool} {file whole whole' : Bytes}
    {out : StreamedOut} (h : GivesOut expander symbianV6hack file whole out)
    (h' : GivesOut expander symbianV6hack file whole' out) : whole = whole' := by
  obtain ⟨bytes, hstream, hruns, hplain⟩ := h.written
  obtain ⟨bytes', hstream', hruns', hplain'⟩ := h'.written
  obtain rfl : bytes = bytes' := by
    have heq := congrArg RCBinaryStream.file (hstream.symm.trans hstream')
    exact List.append_cancel_left heq
  cases hflag : out.containsCompressedUnicode with
  | true => exact Option.some_inj.mp ((hruns hflag).symm.trans (hruns' hflag))
  | false => exact (hplain hflag).symm.trans (hplain' hflag)

/-! ### The sizes of blocks -/

/-- `whole` is the pieces one behind the other, and every prefix is the size of its block. -/
def IsLayout : ℕ → List Piece → Bytes → Prop
  | _, [], whole => whole = []
  | offset, .data bytes :: pieces, whole =>
    ∃ rest, whole = bytes ++ rest ∧ IsLayout (offset + bytes.length) pieces rest
  | offset, .start type :: pieces, whole =>
    ∃ size rest, whole = size ++ rest ∧ size.length = GetSize type ∧
      ofLE size = endOf 0 (offset + GetSize type) pieces - (offset + GetSize type) ∧
      IsLayout (offset + GetSize type) pieces rest
  | offset, .stop :: pieces, whole => IsLayout offset pieces whole
  | offset, .align :: pieces, whole =>
    ∃ rest, whole = padding offset ++ rest ∧ IsLayout (offset + offset % 2) pieces rest

/-- The size of every block is a value of the type in front of it. -/
def SizesFit : ℕ → List Piece → Prop
  | _, [] => True
  | offset, .data bytes :: pieces => SizesFit (offset + bytes.length) pieces
  | offset, .start type :: pieces =>
    endOf 0 (offset + GetSize type) pieces - (offset + GetSize type) < 256 ^ GetSize type ∧
      SizesFit (offset + GetSize type) pieces
  | offset, .stop :: pieces => SizesFit offset pieces
  | offset, .align :: pieces => SizesFit (offset + offset % 2) pieces

/-- The layout with wrapped prefixes is the naive one exactly when the sizes fit. -/
theorem isLayout_layout_iff (pieces : List Piece) : ∀ offset,
    IsLayout offset pieces (layout offset pieces) ↔ SizesFit offset pieces := by
  induction pieces with
  | nil => exact fun _ => iff_of_true rfl trivial
  | cons piece pieces ih =>
    intro offset
    cases piece with
    | data bytes =>
      rw [SizesFit, ← ih]
      refine ⟨fun ⟨rest, hrest, h⟩ => ?_, fun h => ⟨_, rfl, h⟩⟩
      rwa [List.append_cancel_left hrest]
    | start type =>
      rw [SizesFit, ← ih]
      set size := endOf 0 (offset + GetSize type) pieces - (offset + GetSize type) with hsize
      have hread : ofLE (leBytes (GetSize type) size) = size % 256 ^ GetSize type := ofLE_leBytes ..
      constructor
      · rintro ⟨prefixed, rest, hrest, hlen, hvalue, h⟩
        obtain ⟨rfl, rfl⟩ := List.append_inj (show leBytes (GetSize type) size ++ _ = _ from hrest)
          ((length_leBytes ..).trans hlen.symm)
        rw [hread, ← hsize] at hvalue
        exact ⟨hvalue ▸ Nat.mod_lt _ (Nat.pow_pos (by omega)), h⟩
      · rintro ⟨hlt, h⟩
        exact ⟨leBytes (GetSize type) size, _, rfl, length_leBytes .., hread.trans (Nat.mod_eq_of_lt hlt), h⟩
    | stop => exact ih offset
    | align =>
      rw [SizesFit, ← ih]
      refine ⟨fun ⟨rest, hrest, h⟩ => ?_, fun h => ⟨_, rfl, h⟩⟩
      rwa [List.append_cancel_left hrest]

/-- Text of printable characters in single bytes, any other in Unicode mode. -/
def compressSample (words : List UInt16) : Bytes :=
  if words.all (fun w => 0x20 ≤ w && w < 0x80) then words.map UInt16.toUInt8
  else 0x0f :: wordBytes words

def wordsOf : Bytes → List UInt16
  | a :: b :: rest => UInt16.ofNat (ofLE [a, b]) :: wordsOf rest
  | _ => []

def expandSample : Bytes → List UInt16
  | 0x0f :: rest => wordsOf rest
  | bytes => bytes.map UInt8.toUInt16

theorem wordsOf_wordBytes (words : List UInt16) : wordsOf (wordBytes words) = words := by
  induction words with
  | nil => rfl
  | cons w words ih =>
    obtain ⟨a, b, hab⟩ : ∃ a b, leBytes 2 w.toNat = [a, b] := ⟨_, _, rfl⟩
    have hread : ofLE [a, b] = w.toNat := by
      rw [← hab]
      exact ofLE_leBytes_of_lt w.toNat_lt
    rw [wordBytes, List.flatMap_cons, ← wordBytes, hab]
    show UInt16.ofNat (ofLE [a, b]) :: wordsOf (wordBytes words) = _
    rw [hread, ih, UInt16.ofNat_toNat]

theorem expandSample_compressSample (words : List UInt16) : expandSample (compressSample words) = words := by
  unfold compressSample
  split
  case isTrue hall =>
    have hback : (words.map UInt16.toUInt8).map UInt8.toUInt16 = words := by
      rw [List.map_map]
      refine (List.map_congr_left fun w hw => ?_).trans (List.map_id' words)
      have hlt := List.all_eq_true.mp hall w hw
      simp only [Bool.and_eq_true, decide_eq_true_eq] at hlt
      apply UInt16.toNat_inj.mp
      have hsmall : w.toNat < 0x80 := UInt16.lt_iff_toNat_lt.mp hlt.2
      simp only [Function.comp_apply, UInt8.toNat_toUInt16, UInt16.toNat_toUInt8]
      exact Nat.mod_eq_of_lt (by omega)
    rcases words with _ | ⟨w, words⟩
    · rfl
    · have hw := List.all_eq_true.mp hall w (List.mem_cons_self ..)
      simp only [Bool.and_eq_true, decide_eq_true_eq] at hw
      have hne : w.toUInt8 ≠ 0x0f := by
        intro h
        have h₁ := UInt16.le_iff_toNat_le.mp hw.1
        have h₂ := UInt16.lt_iff_toNat_lt.mp hw.2
        have h₃ := congrArg UInt8.toNat h
        rw [UInt16.toNat_toUInt8] at h₃
        simp at h₁ h₂ h₃
        omega
      rw [List.map_cons] at hback ⊢
      unfold expandSample
      split
      case h_1 rest h => exact absurd (List.cons.inj h).1 hne
      case h_2 => exact hback
  case isFalse => exact wordsOf_wordBytes words

/-- A block with a string in it, between bytes and another string. -/
def sampleCalls : List Call :=
  [.StreamIn [7], .StartOfBlockWithSizePrefix .L_BYTE, .StreamOutCompressingIfReducesSize (List.replicate 12 0x61),
    .MakePlaceHolder 1, .EndOfBlockWithSizePrefix, .StreamOutCompressingIfReducesSize (List.replicate 9 0x62),
    .StreamOutCompressingIfReducesSize [0x4e00]]

end GnuPoc.Rcomp
