import GnuPoc.Rcomp.LengthPasses

/-!
# GnuPoc.Rcomp.Collect — the segments that calls leave in a stream

After any calls a stream is made of segments whose layout is that of the calls: an alignment or a compressed
run stands for a string, and an empty compressed run in front where the resource does not begin with one.
-/

namespace GnuPoc.Rcomp

open GnuPoc.Lib

def placeHolder (n : ℕ) : Bytes := List.replicate n 0xeb

/-- The pieces of a call; a link has the bytes that `sites` says. -/
def Call.pieces (sites : ℕ → DataType → Bytes) : Call → List Piece
  | .StreamIn bytes => [.data bytes]
  | .MakePlaceHolder n => [.data (placeHolder n)]
  | .StartOfBlockWithSizePrefix type => [.start type]
  | .EndOfBlockWithSizePrefix => [.stop]
  | .StreamOutCompressingIfReducesSize words => text words
  | .link k type => [.data (sites k type)]

def callPieces (sites : ℕ → DataType → Bytes) (calls : List Call) : List Piece :=
  calls.flatMap (Call.pieces sites)

/-- The blocks that are open in front of the calls, and those that they begin, end. -/
def Nested : ℕ → List Call → Prop
  | depth, [] => depth = 0
  | depth, .StartOfBlockWithSizePrefix _ :: calls => Nested (depth + 1) calls
  | 0, .EndOfBlockWithSizePrefix :: _ => False
  | depth + 1, .EndOfBlockWithSizePrefix :: calls => Nested depth calls
  | depth, _ :: calls => Nested depth calls

/-! ### Stream operations on segments -/

theorem marksOf_concat (segs : List Seg) (e : Event) (bs : Bytes) (pos : ℕ) :
    marksOf pos (segs ++ [(e, bs)]) = marksOf pos segs ++ e.marks (pos + (buffer segs).length) := by
  rw [marksOf_append, marksOf, marksOf, List.append_nil]

theorem appendMark_streamOf {e : Event} (he : e.isRun = false) (lead : Bytes) (segs : List Seg) :
    (streamOf lead segs).AppendMark e.type = streamOf lead (segs ++ [(e, [])]) := by
  have hmarks : e.marks (lead.length + (buffer segs).length) =
      [⟨(streamOf lead segs).iNumberOfBytesUsed, e.type⟩] := by
    rw [ResourceDataStream.iNumberOfBytesUsed, streamOf, List.length_append]
    cases e with
    | run words compressed => exact Bool.noConfusion he
    | start type => rfl
    | stop => rfl
    | align => rfl
    | enquire k => rfl
  have hbytes : e.bytes = [] := by
    cases e with
    | run words compressed => exact Bool.noConfusion he
    | start type => rfl
    | stop => rfl
    | align => rfl
    | enquire k => rfl
  have hbuffer : buffer (segs ++ [(e, [])]) = buffer segs := by
    rw [buffer_append]
    simp [buffer, hbytes]
  have hrun : hasRun (segs ++ [(e, [])]) = hasRun segs := by
    rw [hasRun_append, hasRun_cons, he]
    exact Bool.or_false _
  rw [ResourceDataStream.AppendMark, ← hmarks, streamOf, streamOf, marksOf_concat, hbuffer, hrun]

theorem streamIn_nil (lead b : Bytes) : (streamOf lead []).StreamIn b = streamOf (lead ++ b) [] := by
  unfold ResourceDataStream.StreamIn streamOf
  simp [buffer, marksOf]

theorem streamIn_concat (lead : Bytes) (segs : List Seg) (e : Event) (bs b : Bytes) :
    (streamOf lead (segs ++ [(e, bs)])).StreamIn b = streamOf lead (segs ++ [(e, bs ++ b)]) := by
  have hbuffer : lead ++ buffer (segs ++ [(e, bs ++ b)]) = lead ++ buffer (segs ++ [(e, bs)]) ++ b := by
    rw [buffer_append, buffer_append]
    simp only [buffer, List.flatMap_singleton, List.append_assoc]
  have hrun : hasRun (segs ++ [(e, bs ++ b)]) = hasRun (segs ++ [(e, bs)]) := by
    rw [hasRun_append, hasRun_append]
    rfl
  unfold ResourceDataStream.StreamIn streamOf
  rw [hbuffer, marksOf_concat, marksOf_concat, hrun]

theorem run_streamOf {lead : Bytes} {segs : List Seg} (words : List UInt16) (compressed : Bytes)
    (h : hasRun segs = true ∨ lead = [] ∧ segs = []) :
    (((streamOf lead segs).StartOfCompressedUnicodeRun words).StreamIn compressed).EndOfCompressedUnicodeRun =
      streamOf lead (segs ++ [(.run words compressed, [])]) := by
  have hcond : (!(streamOf lead segs).iContainsCompressedUnicode &&
      (decide (0 < (streamOf lead segs).iNumberOfBytesUsed) ||
        (streamOf lead segs).iArrayOfMarks.any ResourceDataStream.isStartOfBlock)) = false := by
    rcases h with h | ⟨rfl, rfl⟩
    · rw [show (streamOf lead segs).iContainsCompressedUnicode = hasRun segs from rfl, h]
      rfl
    · rfl
  have hbuffer : lead ++ buffer (segs ++ [(.run words compressed, [])]) = lead ++ buffer segs ++ compressed := by
    rw [buffer_append, List.append_assoc]
    simp [buffer, Event.bytes]
  have hrun : hasRun (segs ++ [(.run words compressed, [])]) = true := by
    rw [hasRun_append, hasRun_cons, Event.isRun, Bool.true_or, Bool.or_true]
  unfold ResourceDataStream.StartOfCompressedUnicodeRun
  simp only [hcond]
  unfold ResourceDataStream.EndOfCompressedUnicodeRun ResourceDataStream.AppendMark ResourceDataStream.StreamIn
  unfold ResourceDataStream.iNumberOfBytesUsed streamOf
  rw [hbuffer, hrun, marksOf_concat]
  simp [Event.marks, Nat.add_assoc]

/-- The stream behind the first compressed string, when something stands in front of it. -/
theorem first_run_streamOf {lead : Bytes} {segs : List Seg} (words : List UInt16) (compressed : Bytes)
    (hnone : hasRun segs = false)
    (h : 0 < (lead ++ buffer segs).length ∨ ∃ type bs rest, segs = (.start type, bs) :: rest) :
    (((streamOf lead segs).StartOfCompressedUnicodeRun words).StreamIn compressed).EndOfCompressedUnicodeRun =
      streamOf [] ((.run [] [], lead) :: segs ++ [(.run words compressed, [])]) := by
  have hcond : (!(streamOf lead segs).iContainsCompressedUnicode &&
      (decide (0 < (streamOf lead segs).iNumberOfBytesUsed) ||
        (streamOf lead segs).iArrayOfMarks.any ResourceDataStream.isStartOfBlock)) = true := by
    rw [show (streamOf lead segs).iContainsCompressedUnicode = hasRun segs from rfl, hnone, Bool.not_false,
      Bool.true_and, Bool.or_eq_true]
    rcases h with h | ⟨type, bs, rest, rfl⟩
    · exact .inl (decide_eq_true h)
    · exact .inr rfl
  have hbuffer : [] ++ buffer ((.run [] [], lead) :: segs ++ [(.run words compressed, [])]) =
      lead ++ buffer segs ++ compressed := by
    rw [List.cons_append, buffer, List.flatMap_cons, ← buffer, buffer_append]
    simp [buffer, Event.bytes]
  have hrun : hasRun ((.run [] [], lead) :: segs ++ [(.run words compressed, [])]) = true := by
    rw [List.cons_append, hasRun_cons]
    exact Bool.true_or _
  have hmarks : marksOf ([] : Bytes).length ((.run [] [], lead) :: segs ++ [(.run words compressed, [])]) =
      ⟨0, .StartOfCompressedUnicodeRun []⟩ :: ⟨0, .EndOfCompressedUnicodeRun⟩ :: (marksOf lead.length segs ++
        Event.marks (lead.length + (buffer segs).length) (.run words compressed)) := by
    rw [List.cons_append, marksOf, ← marksOf_concat segs (.run words compressed) []]
    simp [Event.marks, Event.bytes]
  unfold ResourceDataStream.StartOfCompressedUnicodeRun
  simp only [hcond]
  unfold ResourceDataStream.EndOfCompressedUnicodeRun ResourceDataStream.AppendMark ResourceDataStream.StreamIn
  unfold ResourceDataStream.iNumberOfBytesUsed streamOf
  rw [hbuffer, hrun, hmarks]
  simp [Event.marks, Nat.add_assoc]

/-! ### Appending a segment -/

section
variable {expander : Bytes → List UInt16}

/-- The segments at the end may be replaced by what is good wherever they are. -/
theorem good_append_imp {last last' : List Seg}
    (hlast : ∀ encountered offset, Good expander encountered offset last → Good expander encountered offset last')
    (segs : List Seg) : ∀ encountered offset,
    Good expander encountered offset (segs ++ last) → Good expander encountered offset (segs ++ last') := by
  induction segs with
  | nil => exact hlast
  | cons seg segs ih =>
    rcases seg with ⟨e', b⟩
    intro encountered offset h
    cases e' with
    | run words compressed => exact ⟨h.1, ih _ _ h.2⟩
    | start type => exact ih _ _ h
    | stop => exact ih _ _ h
    | align => exact ih _ _ h
    | enquire k => exact ih _ _ h

theorem good_concat {e : Event} {bs : Bytes} (he : e.isRun = false) (segs : List Seg) (encountered : Bool) (offset : ℕ)
    (h : Good expander encountered offset segs) : Good expander encountered offset (segs ++ [(e, bs)]) := by
  rw [← List.append_nil segs] at h
  refine good_append_imp (fun encountered offset _ => ?_) segs _ _ h
  exact good_of_not_hasRun _ _ _ (by rw [hasRun_cons, he]; rfl)

theorem good_concat_run {words : List UInt16} {compressed bs : Bytes} (hproper : Proper expander words compressed)
    (segs : List Seg) (encountered : Bool) (offset : ℕ) (h : Good expander encountered offset segs) :
    Good expander encountered offset (segs ++ [(.run words compressed, bs)]) := by
  rw [← List.append_nil segs] at h
  refine good_append_imp (fun encountered offset _ => ?_) segs _ _ h
  exact ⟨.inl hproper, trivial⟩

theorem good_last {e : Event} {bs bs' : Bytes} (segs : List Seg) (encountered : Bool) (offset : ℕ)
    (h : Good expander encountered offset (segs ++ [(e, bs)])) :
    Good expander encountered offset (segs ++ [(e, bs')]) := by
  refine good_append_imp (fun encountered offset h => ?_) segs _ _ h
  cases e with
  | run words compressed => exact ⟨h.1, trivial⟩
  | start type => trivial
  | stop => trivial
  | align => trivial
  | enquire k => trivial

end

/-- After the segments this many blocks are open. -/
def Opens : ℕ → ℕ → List Seg → Prop
  | depth, after, [] => depth = after
  | depth, after, (.start _, _) :: segs => Opens (depth + 1) after segs
  | 0, _, (.stop, _) :: _ => False
  | depth + 1, after, (.stop, _) :: segs => Opens depth after segs
  | depth, after, (_, _) :: segs => Opens depth after segs

theorem balanced_of_opens (segs : List Seg) : ∀ depth, Opens depth 0 segs → Balanced depth segs := by
  induction segs with
  | nil => exact fun _ h => h
  | cons seg segs ih =>
    rcases seg with ⟨e, bs⟩
    intro depth h
    cases e with
    | start type => cases depth <;> exact ih _ h
    | stop =>
      cases depth with
      | zero => exact h
      | succ depth => exact ih _ h
    | run words compressed => cases depth <;> exact ih _ h
    | align => cases depth <;> exact ih _ h
    | enquire k => cases depth <;> exact ih _ h

/-- The blocks that are open behind an event. -/
def Event.opened (depth : ℕ) : Event → ℕ
  | .start _ => depth + 1
  | .stop => depth - 1
  | _ => depth

/-- The segments at the end may be replaced by what opens as many blocks wherever they are. -/
theorem opens_append_imp {last last' : List Seg} {after after' : ℕ}
    (hlast : ∀ depth, Opens depth after last → Opens depth after' last') (segs : List Seg) : ∀ depth,
    Opens depth after (segs ++ last) → Opens depth after' (segs ++ last') := by
  induction segs with
  | nil => exact hlast
  | cons seg segs ih =>
    rcases seg with ⟨e', b⟩
    intro depth h
    cases e' with
    | start type => cases depth <;> exact ih _ h
    | stop =>
      cases depth with
      | zero => exact h
      | succ depth => exact ih _ h
    | run words compressed => cases depth <;> exact ih _ h
    | align => cases depth <;> exact ih _ h
    | enquire k => cases depth <;> exact ih _ h

theorem opens_concat {e : Event} {bs : Bytes} {after : ℕ} (he : e = .stop → after ≠ 0) (segs : List Seg) (depth : ℕ)
    (h : Opens depth after segs) : Opens depth (e.opened after) (segs ++ [(e, bs)]) := by
  rw [← List.append_nil segs] at h
  refine opens_append_imp ?_ segs depth h
  rintro depth rfl
  cases e with
  | start type => cases depth <;> rfl
  | stop =>
    cases depth with
    | zero => exact absurd rfl (he rfl)
    | succ depth => rfl
  | run words compressed => cases depth <;> rfl
  | align => cases depth <;> rfl
  | enquire k => cases depth <;> rfl

theorem opens_last {e : Event} {bs bs' : Bytes} {after : ℕ} (segs : List Seg) (depth : ℕ)
    (h : Opens depth after (segs ++ [(e, bs)])) : Opens depth after (segs ++ [(e, bs')]) := by
  refine opens_append_imp (fun depth h => ?_) segs depth h
  cases e <;> cases depth <;> exact h

/-! ### Calls -/

/-- What holds of the segments of a stream between the calls; `links` are the links that were made. -/
structure Between (expander : Bytes → List UInt16) (links : ℕ → DataType → Prop) (depth : ℕ) (lead : Bytes)
    (segs : List Seg) : Prop where
  good : Good expander false lead.length segs
  opens : Opens 0 depth segs
  front : hasRun segs = true → lead = [] ∧ ∃ words compressed bs rest, segs = (.run words compressed, bs) :: rest
  first : segs = [] ∨ hasRun segs = true ∨ 0 < (lead ++ buffer segs).length ∨
    ∃ type bs rest, segs = (.start type, bs) :: rest
  places : ∀ k bs, (Event.enquire k, bs) ∈ segs → ∃ type rest, links k type ∧
    bs = placeHolder (GetSize type) ++ rest

section
variable {expander : Bytes → List UInt16} {links : ℕ → DataType → Prop} {depth : ℕ} {lead : Bytes}
  {segs : List Seg}

theorem Between.ready (h : Between expander links 0 lead segs) : Ready expander lead segs :=
  ⟨h.good, balanced_of_opens segs 0 h.opens, h.front⟩

theorem Between.concat (h : Between expander links depth lead segs) {e : Event} {bs : Bytes}
    (he : e.isRun = false) (hstop : e = .stop → depth ≠ 0)
    (hfirst : 0 < bs.length ∨ e = .stop ∨ ∃ type, e = .start type)
    (hplace : ∀ k, e = .enquire k → ∃ type rest, links k type ∧ bs = placeHolder (GetSize type) ++ rest) :
    Between expander links (e.opened depth) lead (segs ++ [(e, bs)]) where
  good := good_concat he segs _ _ h.good
  opens := opens_concat hstop segs 0 h.opens
  front hrun := by
    rw [hasRun_append, hasRun_cons, he, Bool.false_or, show hasRun [] = false from rfl, Bool.or_false] at hrun
    obtain ⟨hlead, words, compressed, bs', rest, hsegs⟩ := h.front hrun
    exact ⟨hlead, words, compressed, bs', _, by rw [hsegs, List.cons_append]⟩
  first := by
    right
    have hrun : hasRun (segs ++ [(e, bs)]) = hasRun segs := by
      rw [hasRun_append, hasRun_cons, he]
      exact Bool.or_false _
    have hmono : (lead ++ buffer segs).length ≤ (lead ++ buffer (segs ++ [(e, bs)])).length := by
      rw [buffer_append, List.length_append, List.length_append, List.length_append]
      omega
    rw [hrun]
    rcases hfirst with hbs | rfl | ⟨type, rfl⟩
    · right
      left
      have hlast : (buffer [(e, bs)]).length = e.bytes.length + bs.length := length_buffer_cons e bs []
      rw [buffer_append, List.length_append, List.length_append, hlast]
      omega
    · rcases h.first with rfl | hr | hlen | ⟨type, bs', rest, rfl⟩
      · exact absurd h.opens.symm (hstop rfl)
      · exact .inl hr
      · exact .inr (.inl (by omega))
      · exact .inr (.inr ⟨type, bs', _, rfl⟩)
    · rcases h.first with rfl | hr | hlen | ⟨type', bs', rest, rfl⟩
      · exact .inr (.inr ⟨type, bs, _, rfl⟩)
      · exact .inl hr
      · exact .inr (.inl (by omega))
      · exact .inr (.inr ⟨type', bs', _, rfl⟩)
  places k b hmem := by
    rcases List.mem_append.mp hmem with hmem | hmem
    · exact h.places k b hmem
    · obtain ⟨rfl, rfl⟩ := Prod.mk.inj (List.mem_singleton.mp hmem)
      exact hplace k rfl

/-- The stream `s` has segments that lay out as the old ones with these pieces behind; `keys` are the positions
that are enquired after more. -/
def Reached (expander : Bytes → List UInt16) (links : ℕ → DataType → Prop) (lead : Bytes) (segs : List Seg)
    (added : (ℕ → DataType → Bytes) → List Piece) (keys : List ℕ) (depth : ℕ) (s : ResourceDataStream) : Prop :=
  ∃ lead' segs', s = streamOf lead' segs' ∧ Between expander links depth lead' segs' ∧
    (places segs').map Prod.fst = (places segs).map Prod.fst ++ keys ∧
    ∀ (f : ℕ → Bytes → Bytes) (sites : ℕ → DataType → Bytes),
      (∀ k type, links k type → ∀ rest, f k (placeHolder (GetSize type) ++ rest) = sites k type ++ rest) →
      ∀ rest, Same (.data lead :: pieces (patched f segs) ++ (added sites ++ rest))
        (.data lead' :: pieces (patched f segs') ++ rest)

/-- Plain bytes go behind the last event. -/
theorem Between.streamIn (h : Between expander links depth lead segs) (b : Bytes) :
    Reached expander links lead segs (fun _ => [.data b]) [] depth ((streamOf lead segs).StreamIn b) := by
  rcases List.eq_nil_or_concat segs with rfl | ⟨init, ⟨e, bs⟩, rfl⟩
  · refine ⟨lead ++ b, [], streamIn_nil lead b, ⟨trivial, h.opens,
      fun hrun => absurd hrun Bool.false_ne_true, .inl rfl, fun _ _ hmem => absurd hmem List.not_mem_nil⟩,
      rfl, fun f sites _ rest => ?_⟩
    exact (same_data_append lead b rest).symm
  · rw [List.concat_eq_append] at h ⊢
    have hrun : hasRun (init ++ [(e, bs ++ b)]) = hasRun (init ++ [(e, bs)]) := by
      rw [hasRun_append, hasRun_append]
      rfl
    refine ⟨lead, init ++ [(e, bs ++ b)], streamIn_concat lead init e bs b, ⟨good_last init _ _ h.good,
      opens_last init _ h.opens, fun hr => ?_, ?_, ?_⟩, ?_, fun f sites hf rest => ?_⟩
    · obtain ⟨hlead, words, compressed, bs', tail, hsegs⟩ := h.front (hrun ▸ hr)
      rcases init with _ | ⟨seg, init⟩
      · rw [List.nil_append, List.cons.injEq, Prod.mk.injEq] at hsegs
        exact ⟨hlead, words, compressed, bs ++ b, [], by rw [hsegs.1.1, List.nil_append]⟩
      · rw [List.cons_append, List.cons.injEq] at hsegs
        exact ⟨hlead, words, compressed, bs', _, by rw [List.cons_append, hsegs.1]⟩
    · rw [hrun]
      rcases h.first with hnil | hr | hlen | ⟨type, bs', tail, hsegs⟩
      · exact absurd hnil (List.append_ne_nil_of_right_ne_nil _ (List.cons_ne_nil _ _))
      · exact .inr (.inl hr)
      · refine .inr (.inr (.inl ?_))
        have hmono : (buffer (init ++ [(e, bs)])).length ≤ (buffer (init ++ [(e, bs ++ b)])).length := by
          rw [buffer_append, buffer_append]
          simp only [buffer, List.flatMap_singleton, List.length_append]
          omega
        rw [List.length_append] at hlen ⊢
        omega
      · rcases init with _ | ⟨seg, init⟩
        · rw [List.nil_append, List.cons.injEq, Prod.mk.injEq] at hsegs
          exact .inr (.inr (.inr ⟨type, bs ++ b, [], by rw [hsegs.1.1, List.nil_append]⟩))
        · rw [List.cons_append, List.cons.injEq] at hsegs
          exact .inr (.inr (.inr ⟨type, bs', _, by rw [List.cons_append, hsegs.1]⟩))
    · intro k b' hmem
      rcases List.mem_append.mp hmem with hmem | hmem
      · exact h.places k b' (List.mem_append_left _ hmem)
      · obtain ⟨rfl, rfl⟩ := Prod.mk.inj (List.mem_singleton.mp hmem)
        obtain ⟨type, tail, hlink, hbs⟩ := h.places k bs (List.mem_append_right _ (List.mem_singleton_self _))
        exact ⟨type, tail ++ b, hlink, by rw [hbs, List.append_assoc]⟩
    · rw [places_append, places_append, List.map_append, List.map_append, List.append_nil]
      cases e <;> rfl
    · have hpatch : Same (pieces (patched f [(e, bs)]) ++ .data b :: rest)
          (pieces (patched f [(e, bs ++ b)]) ++ rest) := by
        have hlast : ∀ bs' : Bytes, pieces [(e, bs')] = e.pieces ++ [.data bs'] := fun bs' => by
          rw [pieces_cons]
          rfl
        obtain ⟨c, hc, hcb⟩ : ∃ c, patched f [(e, bs)] = [(e, c)] ∧ patched f [(e, bs ++ b)] = [(e, c ++ b)] := by
          cases e with
          | enquire k =>
            obtain ⟨type, tail, hlink, rfl⟩ := h.places k bs
              (List.mem_append_right _ (List.mem_singleton_self _))
            refine ⟨f k (placeHolder (GetSize type) ++ tail), rfl, ?_⟩
            show [_] = [_]
            rw [Seg.patch, List.append_assoc, hf k type hlink, hf k type hlink, List.append_assoc]
          | start type => exact ⟨bs, rfl, rfl⟩
          | stop => exact ⟨bs, rfl, rfl⟩
          | run words compressed => exact ⟨bs, rfl, rfl⟩
          | align => exact ⟨bs, rfl, rfl⟩
        rw [hc, hcb, hlast, hlast, List.append_assoc, List.append_assoc]
        exact Same.append_left e.pieces (same_data_append c b rest).symm
      have hsplit : ∀ bs' ps, Piece.data lead :: pieces (patched f (init ++ [(e, bs')])) ++ ps =
          Piece.data lead :: pieces (patched f init) ++ (pieces (patched f [(e, bs')]) ++ ps) := fun bs' ps => by
        rw [patched_append, pieces_append]
        simp only [List.cons_append, List.append_assoc]
      rw [hsplit, hsplit]
      exact Same.append_left _ hpatch

theorem Between.run (h : Between expander links depth lead segs) {words : List UInt16} {compressed : Bytes}
    (hproper : Proper expander words compressed) (hfront : hasRun segs = true ∨ lead = [] ∧ segs = []) :
    Between expander links depth lead (segs ++ [(.run words compressed, [])]) where
  good := good_concat_run hproper segs _ _ h.good
  opens := opens_concat (e := .run words compressed) (fun h => Event.noConfusion h) segs 0 h.opens
  front _ := by
    rcases hfront with hrun | ⟨hlead, rfl⟩
    · obtain ⟨hlead, words', compressed', bs', rest, hsegs⟩ := h.front hrun
      exact ⟨hlead, words', compressed', bs', _, by rw [hsegs, List.cons_append]⟩
    · exact ⟨hlead, words, compressed, [], [], rfl⟩
  first := by
    rw [hasRun_append, hasRun_cons, Event.isRun, Bool.true_or, Bool.or_true]
    exact .inr (.inl rfl)
  places k b hmem := by
    rcases List.mem_append.mp hmem with hmem | hmem
    · exact h.places k b hmem
    · exact Event.noConfusion (Prod.mk.inj (List.mem_singleton.mp hmem)).1

theorem Between.first_run (h : Between expander links depth lead segs) {words : List UInt16} {compressed : Bytes}
    (hproper : Proper expander words compressed) (hnone : hasRun segs = false) :
    Between expander links depth [] ((.run [] [], lead) :: segs ++ [(.run words compressed, [])]) where
  good := ⟨.inr ⟨rfl, rfl, rfl, rfl⟩, good_concat_run hproper segs _ _ (good_of_not_hasRun segs _ _ hnone)⟩
  opens := opens_concat (e := .run words compressed) (fun h => Event.noConfusion h) segs 0 h.opens
  front _ := ⟨rfl, [], [], lead, _, rfl⟩
  first := .inr (.inl (by
    rw [List.cons_append, hasRun_cons]
    exact Bool.true_or _))
  places k b hmem := by
    rw [List.cons_append, List.mem_cons] at hmem
    rcases hmem with hmem | hmem
    · exact Event.noConfusion (Prod.mk.inj hmem).1
    · rcases List.mem_append.mp hmem with hmem | hmem
      · exact h.places k b hmem
      · exact Event.noConfusion (Prod.mk.inj (List.mem_singleton.mp hmem)).1

/-- The blocks that are open behind a call. -/
def Call.opened (depth : ℕ) : Call → ℕ
  | .StartOfBlockWithSizePrefix _ => depth + 1
  | .EndOfBlockWithSizePrefix => depth - 1
  | _ => depth

/-- The position that a call enquires after. -/
def Call.keys : Call → List ℕ
  | .link k _ => [k]
  | _ => []

theorem same_concat (f : ℕ → Bytes → Bytes) (lead : Bytes) (segs : List Seg) {e : Event} {bs bs' : Bytes}
    (hpatch : Seg.patch f (e, bs) = (e, bs')) (rest : List Piece) :
    Same (.data lead :: pieces (patched f segs) ++ (e.pieces ++ .data bs' :: rest))
      (.data lead :: pieces (patched f (segs ++ [(e, bs)])) ++ rest) := by
  have hlast : pieces (patched f [(e, bs)]) = e.pieces ++ [.data bs'] := by
    show pieces [Seg.patch f (e, bs)] = _
    rw [hpatch, pieces_cons]
    rfl
  rw [patched_append, pieces_append, hlast]
  simp only [List.cons_append, List.append_assoc, List.nil_append]
  exact .refl _

theorem same_concat_nil (f : ℕ → Bytes → Bytes) (lead : Bytes) (segs : List Seg) {e : Event}
    (he : ∀ k, e ≠ .enquire k) (rest : List Piece) :
    Same (.data lead :: pieces (patched f segs) ++ (e.pieces ++ rest))
      (.data lead :: pieces (patched f (segs ++ [(e, [])])) ++ rest) := by
  have hpatch : Seg.patch f (e, []) = (e, []) := by
    cases e with
    | enquire k => exact absurd rfl (he k)
    | start type => rfl
    | stop => rfl
    | run words compressed => rfl
    | align => rfl
  refine Same.trans (Same.append_left _ (Same.append_left _ (same_data_nil rest).symm)) ?_
  exact same_concat f lead segs hpatch rest

theorem places_concat {e : Event} (he : ∀ k, e ≠ .enquire k) (bs : Bytes) (segs : List Seg) :
    (places (segs ++ [(e, bs)])).map Prod.fst = (places segs).map Prod.fst ++ [] := by
  rw [places_append, List.map_append]
  cases e with
  | enquire k => exact absurd rfl (he k)
  | start type => rfl
  | stop => rfl
  | run words compressed => rfl
  | align => rfl

theorem Between.mark (h : Between expander links depth lead segs) {e : Event} (hstop : e = .stop → depth ≠ 0)
    (he : e = .stop ∨ ∃ type, e = .start type) :
    Reached expander links lead segs (fun _ => e.pieces) [] (e.opened depth)
      ((streamOf lead segs).AppendMark e.type) := by
  have hrun : e.isRun = false := by
    rcases he with rfl | ⟨type, rfl⟩
    · rfl
    · rfl
  have hplace : ∀ k, e ≠ .enquire k := by
    rintro k rfl
    rcases he with h | ⟨type, h⟩
    · exact nomatch h
    · exact nomatch h
  exact ⟨lead, segs ++ [(e, [])], appendMark_streamOf hrun lead segs,
    h.concat hrun hstop (.inr he) (fun k hk => absurd hk (hplace k)), places_concat hplace [] segs,
    fun f _ _ rest => same_concat_nil f lead segs hplace rest⟩

theorem Between.compressed (h : Between expander links depth lead segs) {words : List UInt16} {compressed : Bytes}
    (hproper : Proper expander words compressed) :
    Reached expander links lead segs (fun _ => text words) [] depth
      (((streamOf lead segs).StartOfCompressedUnicodeRun words).StreamIn compressed).EndOfCompressedUnicodeRun := by
  have hsame : ∀ f rest, Same (.data lead :: pieces (patched f segs) ++ (text words ++ rest))
      (.data lead :: pieces (patched f (segs ++ [(.run words compressed, [])])) ++ rest) := fun f rest =>
    same_concat_nil f lead segs (e := .run words compressed) (fun _ h => Event.noConfusion h) rest
  by_cases hfront : hasRun segs = true ∨ lead = [] ∧ segs = []
  · exact ⟨lead, segs ++ [(.run words compressed, [])], run_streamOf words compressed hfront, h.run hproper hfront,
      places_concat (fun _ h => Event.noConfusion h) [] segs, fun f _ _ rest => hsame f rest⟩
  · rw [not_or, Bool.not_eq_true, not_and] at hfront
    obtain ⟨hnone, hfront⟩ := hfront
    have hsome : 0 < (lead ++ buffer segs).length ∨ ∃ type bs rest, segs = (.start type, bs) :: rest := by
      rcases h.first with rfl | hr | hlen | hstart
      · refine .inl ?_
        rw [List.length_append]
        exact Nat.lt_of_lt_of_le (List.length_pos_of_ne_nil fun hlead => hfront hlead rfl) (Nat.le_add_right _ _)
      · exact absurd hr (by rw [hnone]; exact Bool.false_ne_true)
      · exact .inl hlen
      · exact .inr hstart
    exact ⟨[], (.run [] [], lead) :: segs ++ [(.run words compressed, [])],
      first_run_streamOf words compressed hnone hsome, h.first_run hproper hnone,
      places_concat (fun _ h => Event.noConfusion h) [] segs, fun f _ _ rest => (hsame f rest).trans (same_data_nil _).symm⟩

theorem Between.uncompressed (h : Between expander links depth lead segs) {words : List UInt16}
    (hne : 0 < 2 * words.length) :
    Reached expander links lead segs (fun _ => text words) [] depth
      ((streamOf lead segs).TwoByteAlignmentPoint.StreamIn (wordBytes words)) := by
  have hstream : (streamOf lead segs).TwoByteAlignmentPoint.StreamIn (wordBytes words) =
      streamOf lead (segs ++ [(.align, wordBytes words)]) := by
    have hmark := appendMark_streamOf (e := .align) rfl lead segs
    rw [ResourceDataStream.TwoByteAlignmentPoint]
    rw [Event.type] at hmark
    rw [hmark, streamIn_concat, List.nil_append]
  have hwords : words ≠ [] := by
    rintro rfl
    exact Nat.lt_irrefl 0 hne
  have hpos : 0 < (wordBytes words).length := by
    rw [length_wordBytes]
    exact hne
  have hbetween : Between expander links depth lead (segs ++ [(.align, wordBytes words)]) :=
    h.concat (e := .align) rfl (fun h => Event.noConfusion h) (.inl hpos) fun _ h => Event.noConfusion h
  refine ⟨lead, segs ++ [(.align, wordBytes words)], hstream, hbetween,
    places_concat (fun _ h => Event.noConfusion h) _ segs, fun f _ _ rest => ?_⟩
  rw [text, if_neg hwords]
  exact same_concat f lead segs (e := .align) rfl rest

theorem Between.link (h : Between expander links depth lead segs) {k : ℕ} {type : DataType}
    (hlink : links k type) :
    Reached expander links lead segs (fun sites => [.data (sites k type)]) [k] depth
      (((streamOf lead segs).EnquireStreamPositionWhenKnown k).MakePlaceHolder (GetSize type)) := by
  have hstream : ((streamOf lead segs).EnquireStreamPositionWhenKnown k).MakePlaceHolder (GetSize type) =
      streamOf lead (segs ++ [(.enquire k, placeHolder (GetSize type))]) := by
    have hmark := appendMark_streamOf (e := .enquire k) rfl lead segs
    rw [ResourceDataStream.EnquireStreamPositionWhenKnown, ResourceDataStream.MakePlaceHolder]
    rw [Event.type] at hmark
    rw [hmark, streamIn_concat, List.nil_append]
    rfl
  have hpos : 0 < (placeHolder (GetSize type)).length := by
    rw [placeHolder, List.length_replicate]
    cases type <;> exact Nat.succ_pos _
  refine ⟨lead, _, hstream, h.concat (e := .enquire k) rfl (fun h => Event.noConfusion h) (.inl hpos) ?_,
    by rw [places_append, List.map_append]; rfl, fun f sites hf rest => ?_⟩
  · rintro k' hk
    cases hk
    exact ⟨type, [], hlink, (List.append_nil _).symm⟩
  · have hpatch : Seg.patch f (.enquire k, placeHolder (GetSize type)) = (.enquire k, sites k type) := by
      have hk := hf k type hlink []
      rw [List.append_nil, List.append_nil] at hk
      rw [Seg.patch, hk]
    exact same_concat f lead segs hpatch rest

/-- Every call keeps the stream a row of segments. -/
theorem Between.perform {compress : List UInt16 → Bytes} (hcompress : ∀ words, expander (compress words) = words)
    (hempty : expander [] = []) (h : Between expander links depth lead segs) (call : Call)
    (hdepth : call = .EndOfBlockWithSizePrefix → depth ≠ 0)
    (hlink : ∀ k type, call = .link k type → links k type) :
    Reached expander links lead segs (fun sites => call.pieces sites) call.keys (call.opened depth)
      ((streamOf lead segs).perform compress call) := by
  cases call with
  | StreamIn bytes => exact h.streamIn bytes
  | MakePlaceHolder n => exact h.streamIn (placeHolder n)
  | StartOfBlockWithSizePrefix type => exact h.mark (e := .start type) (fun h => Event.noConfusion h) (.inr ⟨type, rfl⟩)
  | EndOfBlockWithSizePrefix => exact h.mark (e := .stop) (fun _ => hdepth rfl) (.inl rfl)
  | link k type => exact h.link (hlink k type rfl)
  | StreamOutCompressingIfReducesSize words =>
    show Reached _ _ _ _ (fun _ => text words) [] _
      ((streamOf lead segs).StreamOutCompressingIfReducesSize compress words)
    unfold ResourceDataStream.StreamOutCompressingIfReducesSize
    by_cases hshort : (compress words).length < 2 * words.length
    · have hproper : Proper expander words (compress words) := by
        refine ⟨fun hc => ?_, hshort, hcompress words⟩
        have hw := hcompress words
        rw [hc, hempty] at hw
        rw [← hw] at hshort
        exact Nat.not_lt_zero _ hshort
      simp only [if_pos hshort]
      exact h.compressed hproper
    · simp only [if_neg hshort]
      by_cases hne : 0 < 2 * words.length
      · rw [if_pos hne]
        exact h.uncompressed hne
      · have hnil : words = [] := List.length_eq_zero_iff.mp (by omega)
        rw [if_neg hne, hnil]
        exact ⟨lead, segs, rfl, h, (List.append_nil _).symm, fun _ _ _ _ => .refl _⟩

end

theorem nested_cons {call : Call} {calls : List Call} {depth : ℕ} (h : Nested depth (call :: calls)) :
    (call = .EndOfBlockWithSizePrefix → depth ≠ 0) ∧ Nested (call.opened depth) calls := by
  constructor
  · rintro rfl rfl
    exact h
  · cases call with
    | EndOfBlockWithSizePrefix =>
      cases depth with
      | zero => exact h.elim
      | succ depth => exact h
    | StartOfBlockWithSizePrefix type => cases depth <;> exact h
    | StreamIn bytes => cases depth <;> exact h
    | MakePlaceHolder n => cases depth <;> exact h
    | StreamOutCompressingIfReducesSize words => cases depth <;> exact h
    | link k type => cases depth <;> exact h

/-- **The calls on a stream.**  They leave segments with the layout of their pieces. -/
theorem collect_reached {expander : Bytes → List UInt16} {compress : List UInt16 → Bytes}
    {links : ℕ → DataType → Prop} (hcompress : ∀ words, expander (compress words) = words)
    (hempty : expander [] = []) : ∀ (calls : List Call) (depth : ℕ) (lead : Bytes) (segs : List Seg),
    Between expander links depth lead segs → Nested depth calls → (∀ k type, Call.link k type ∈ calls → links k type) →
    Reached expander links lead segs (fun sites => callPieces sites calls) (calls.flatMap Call.keys) 0
      (calls.foldl (ResourceDataStream.perform compress) (streamOf lead segs))
  | [], depth, lead, segs, h, hnested, _ => by
    have hdepth : depth = 0 := hnested
    subst hdepth
    exact ⟨lead, segs, rfl, h, (List.append_nil _).symm, fun _ _ _ _ => .refl _⟩
  | call :: calls, depth, lead, segs, h, hnested, hlinks => by
    obtain ⟨hdepth, hnested'⟩ := nested_cons hnested
    obtain ⟨lead₁, segs₁, hstream, h₁, hkeys₁, hsame₁⟩ := h.perform hcompress hempty call hdepth
      fun k type hcall => hlinks k type (hcall ▸ List.mem_cons_self ..)
    obtain ⟨lead₂, segs₂, hrest, h₂, hkeys₂, hsame₂⟩ := collect_reached hcompress hempty calls _ lead₁ segs₁ h₁ hnested'
      fun k type hmem => hlinks k type (List.mem_cons_of_mem _ hmem)
    refine ⟨lead₂, segs₂, ?_, h₂, ?_, fun f sites hf rest => ?_⟩
    · rw [List.foldl_cons, hstream, hrest]
    · rw [hkeys₂, hkeys₁, List.append_assoc]
      rfl
    · have hsplit : callPieces sites (call :: calls) = call.pieces sites ++ callPieces sites calls := rfl
      show Same (_ ++ (callPieces sites (call :: calls) ++ rest)) _
      rw [hsplit, List.append_assoc]
      exact (hsame₁ f sites hf _).trans (hsame₂ f sites hf rest)

end GnuPoc.Rcomp
