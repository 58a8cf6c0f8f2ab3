import GnuPoc.Rcomp.Passes

/-!
# GnuPoc.Rcomp.RunLengths — the lengths that are asserted on (`rcbinstr.cpp`)

The sizes of a compressed run and of what follows it are written as compressed integers, which asserts that they
are below 0x8000.  A run that gains nothing becomes a part of what stands in front of it, so that lengths grow; how
far they grow is known from the runs alone, taken from the last one on.
-/

namespace GnuPoc.Rcomp

open GnuPoc.Lib

/-- A compressed run: its two sizes, a padding byte in front counted to the uncompressed one, and the number of
bytes between it and the next run. -/
structure CompressedRun where
  compressed : ℕ
  uncompressed : ℕ
  other : ℕ
  deriving DecidableEq

/-- The bytes of a compressed integer. -/
def lengthSize (n : ℕ) : ℕ := if 0x80 ≤ n then 2 else 1

/-- Whether the run with the lengths on either side takes no less than the string, where `other` bytes follow. -/
def CompressedRun.useless (r : CompressedRun) (isLast : Bool) (other : ℕ) : Bool :=
  decide (r.uncompressed ≤ lengthSize r.compressed + r.compressed +
    if !isLast || 0 < other then lengthSize other else 0)

/-- The bytes in front of the first run that is kept, and whether there is none. -/
structure Ahead where
  other : ℕ
  isLast : Bool
  deriving DecidableEq

/-- What is left in front when every run that is useless has gone, from the last one on. -/
def ahead : List CompressedRun → Ahead
  | [] => ⟨0, true⟩
  | r :: rs =>
    if r.useless (ahead rs).isLast (r.other + (ahead rs).other) then
      ⟨r.uncompressed + (r.other + (ahead rs).other), (ahead rs).isLast⟩
    else ⟨0, false⟩

/-- Every length stays below 0x8000. -/
def Short : List CompressedRun → Prop
  | [] => True
  | r :: rs => r.compressed < 0x8000 ∧ r.other + (ahead rs).other < 0x8000 ∧ Short rs

instance decidableShort : (rs : List CompressedRun) → Decidable (Short rs)
  | [] => .isTrue trivial
  | r :: rs =>
    have := decidableShort rs
    inferInstanceAs (Decidable (r.compressed < 0x8000 ∧ r.other + (ahead rs).other < 0x8000 ∧ Short rs))

/-- The lengths fit as they are. -/
def CompressedRun.Fits (r : CompressedRun) : Prop := r.compressed < 0x8000 ∧ r.other < 0x8000

/-- No run is useless as it stands; the first of several is not asked. -/
def Kept : Bool → List CompressedRun → Prop
  | _, [] => True
  | isFirst, r :: rs =>
    ((rs.isEmpty || !isFirst) = true → r.useless rs.isEmpty r.other = false) ∧ Kept false rs

/-! ### Getting rid of a run -/

variable {rs : List CompressedRun}

theorem Short.fits (h : Short rs) : ∀ r ∈ rs, r.Fits := by
  induction rs with
  | nil => exact fun r hr => absurd hr List.not_mem_nil
  | cons r rs ih =>
    obtain ⟨hcompressed, hother, hrest⟩ := h
    intro r' hr'
    rcases List.mem_cons.mp hr' with rfl | hr'
    · exact ⟨hcompressed, Nat.lt_of_le_of_lt (Nat.le_add_right _ _) hother⟩
    · exact ih hrest r' hr'

theorem ahead_of_kept (h : Kept false rs) : ahead rs = ⟨0, rs.isEmpty⟩ := by
  induction rs with
  | nil => rfl
  | cons r rs ih =>
    obtain ⟨hkept, hrest⟩ := h
    have huseless := hkept (by rw [Bool.not_false, Bool.or_true])
    rw [ahead, ih hrest]
    dsimp only
    rw [Nat.add_zero, huseless]
    rfl

theorem short_of_kept {isFirst : Bool} (h : Kept isFirst rs) (hfits : ∀ r ∈ rs, r.Fits) : Short rs := by
  induction rs generalizing isFirst with
  | nil => trivial
  | cons r rs ih =>
    have hr := hfits r (List.mem_cons_self ..)
    refine ⟨hr.1, ?_, ih h.2 fun r' hr' => hfits r' (List.mem_cons_of_mem _ hr')⟩
    rw [ahead_of_kept h.2]
    exact hr.2

theorem lengthSize_mono {m n : ℕ} (h : m ≤ n) : lengthSize m ≤ lengthSize n := by
  unfold lengthSize
  split
  · rw [if_pos (by omega)]
  · split
    · omega
    · omega

theorem ahead_pos (hpos : ∀ r ∈ rs, 0 < r.uncompressed) (hne : rs ≠ [])
    (hlast : (ahead rs).isLast = true) : 0 < (ahead rs).other := by
  cases rs with
  | nil => exact absurd rfl hne
  | cons r rs =>
    have hr := hpos r (List.mem_cons_self ..)
    rw [ahead] at hlast ⊢
    split at hlast
    next huseless =>
      rw [if_pos huseless]
      exact Nat.lt_of_lt_of_le hr (Nat.le_add_right _ _)
    next => exact Bool.noConfusion hlast

theorem useless_ahead {r : CompressedRun} {rs : List CompressedRun} (hpos : ∀ r ∈ rs, 0 < r.uncompressed)
    (h : r.useless rs.isEmpty r.other = true) : r.useless (ahead rs).isLast (r.other + (ahead rs).other) = true := by
  cases rs with
  | nil => exact h
  | cons s rs =>
    have hmono : lengthSize r.other ≤ lengthSize (r.other + (ahead (s :: rs)).other) :=
      lengthSize_mono (Nat.le_add_right _ _)
    have hwritten : (!(ahead (s :: rs)).isLast || decide (0 < r.other + (ahead (s :: rs)).other)) = true := by
      cases hlast : (ahead (s :: rs)).isLast with
      | false => rfl
      | true =>
        have hahead := ahead_pos hpos (List.cons_ne_nil s rs) hlast
        exact decide_eq_true (by omega)
    unfold CompressedRun.useless at h ⊢
    rw [if_pos hwritten]
    rw [List.isEmpty_cons, Bool.not_false, Bool.true_or, if_pos rfl, decide_eq_true_eq] at h
    exact decide_eq_true (by omega)

/-- The run in front when `r` has become a part of what follows it. -/
def CompressedRun.absorb (q r : CompressedRun) : CompressedRun :=
  { q with other := q.other + (r.uncompressed + r.other) }

section
variable {q r : CompressedRun} {rs : List CompressedRun} (hpos : ∀ r ∈ rs, 0 < r.uncompressed)
  (huseless : r.useless rs.isEmpty r.other = true)

include hpos huseless

theorem ahead_useless : ahead (r :: rs) = ⟨r.uncompressed + (r.other + (ahead rs).other), (ahead rs).isLast⟩ := by
  rw [ahead, if_pos (useless_ahead hpos huseless)]

theorem ahead_absorb (pre : List CompressedRun) : ahead (pre ++ q :: r :: rs) = ahead (pre ++ q.absorb r :: rs) := by
  have hother : q.other + (r.uncompressed + (r.other + (ahead rs).other)) =
      (q.absorb r).other + (ahead rs).other := by
    show _ = q.other + (r.uncompressed + r.other) + (ahead rs).other
    omega
  induction pre with
  | nil =>
    show ahead (q :: r :: rs) = ahead (q.absorb r :: rs)
    rw [ahead, ahead_useless hpos huseless]
    dsimp only
    rw [hother, ahead]
    rfl
  | cons p pre ih =>
    show ahead (p :: (pre ++ q :: r :: rs)) = ahead (p :: (pre ++ q.absorb r :: rs))
    rw [ahead, ih, ahead]

/-- **A useless run may go**: the lengths stay short just as before. -/
theorem short_absorb (hcompressed : r.compressed < 0x8000) (pre : List CompressedRun) :
    Short (pre ++ q :: r :: rs) ↔ Short (pre ++ q.absorb r :: rs) := by
  have hother : q.other + (r.uncompressed + (r.other + (ahead rs).other)) =
      (q.absorb r).other + (ahead rs).other := by
    show _ = q.other + (r.uncompressed + r.other) + (ahead rs).other
    omega
  induction pre with
  | nil =>
    show Short (q :: r :: rs) ↔ Short (q.absorb r :: rs)
    rw [Short, Short, Short, ahead_useless hpos huseless]
    dsimp only
    rw [hother]
    constructor
    · rintro ⟨hq, hlong, -, -, hrest⟩
      exact ⟨hq, hlong, hrest⟩
    · rintro ⟨hq, hlong, hrest⟩
      exact ⟨hq, hlong, hcompressed, by omega, hrest⟩
  | cons p pre ih =>
    show Short (p :: (pre ++ q :: r :: rs)) ↔ Short (p :: (pre ++ q.absorb r :: rs))
    rw [Short, Short, ahead_absorb hpos huseless]
    exact and_congr_right fun _ => and_congr_right fun _ => ih

end

/-! ### The runs of segments -/

/-- `numberOfBytesWhenCompressed` of a run. -/
def compressedSize (symbianV6hack : Bool) (words : List UInt16) (compressed : Bytes) : ℕ :=
  if symbianV6hack then 2 * words.length + 100 else compressed.length

/-- The bytes in front of the first run of the segments, and the runs; `rest` is what follows the segments. -/
def segRuns (symbianV6hack : Bool) : ℕ → List Seg → ℕ × List CompressedRun → ℕ × List CompressedRun
  | _, [], rest => rest
  | offset, (.run words compressed, bs) :: segs, rest =>
    let behind := segRuns symbianV6hack (Event.after offset (.run words compressed) + bs.length) segs rest
    (0, ⟨compressedSize symbianV6hack words compressed, sizeWithPadding offset words, bs.length + behind.1⟩ :: behind.2)
  | offset, (e, bs) :: segs, rest =>
    let behind := segRuns symbianV6hack (e.after offset + bs.length) segs rest
    (e.after offset - offset + bs.length + behind.1, behind.2)

section
variable {symbianV6hack : Bool}

theorem segRuns_mark {e : Event} (he : e.isRun = false) (offset : ℕ) (bs : Bytes) (segs : List Seg)
    (rest : ℕ × List CompressedRun) :
    segRuns symbianV6hack offset ((e, bs) :: segs) rest =
      (e.after offset - offset + bs.length + (segRuns symbianV6hack (e.after offset + bs.length) segs rest).1,
        (segRuns symbianV6hack (e.after offset + bs.length) segs rest).2) := by
  cases e with
  | run words compressed => exact Bool.noConfusion he
  | start type => rfl
  | stop => rfl
  | align => rfl
  | enquire k => rfl

theorem segRuns_append (front back : List Seg) (rest : ℕ × List CompressedRun) : ∀ offset,
    segRuns symbianV6hack offset (front ++ back) rest =
      segRuns symbianV6hack offset front (segRuns symbianV6hack (total offset (pieces front)) back rest) := by
  induction front with
  | nil => exact fun _ => rfl
  | cons seg front ih =>
    rcases seg with ⟨e, bs⟩
    intro offset
    rw [total_pieces_cons, List.cons_append]
    by_cases he : e.isRun = false
    · rw [segRuns_mark he, segRuns_mark he, ih]
    · obtain ⟨words, compressed, rfl⟩ := isRun_iff he
      rw [segRuns, segRuns, ih]

theorem segRuns_other (segs : List Seg) : ∀ offset,
    (segRuns symbianV6hack offset segs (0, [])).1 = otherLength offset segs := by
  induction segs with
  | nil => exact fun _ => rfl
  | cons seg segs ih =>
    rcases seg with ⟨e, bs⟩
    intro offset
    cases e with
    | run words compressed => rfl
    | start type => exact congrArg (_ + ·) (ih _)
    | stop => exact congrArg (_ + ·) (ih _)
    | align => exact congrArg (_ + ·) (ih _)
    | enquire k => exact congrArg (_ + ·) (ih _)

theorem segRuns_isEmpty (segs : List Seg) : ∀ offset,
    (segRuns symbianV6hack offset segs (0, [])).2.isEmpty = !hasRun segs := by
  induction segs with
  | nil => exact fun _ => rfl
  | cons seg segs ih =>
    rcases seg with ⟨e, bs⟩
    intro offset
    rw [hasRun_cons]
    by_cases he : e.isRun = false
    · rw [segRuns_mark he, he, Bool.false_or]
      exact ih _
    · obtain ⟨words, compressed, rfl⟩ := isRun_iff he
      rfl

theorem segRuns_of_not_hasRun (segs : List Seg) : ∀ offset, hasRun segs = false →
    ∃ n, ∀ rest, segRuns symbianV6hack offset segs rest = (n + rest.1, rest.2) := by
  induction segs with
  | nil => exact fun _ _ => ⟨0, fun rest => by rw [Nat.zero_add]; rfl⟩
  | cons seg segs ih =>
    rcases seg with ⟨e, bs⟩
    intro offset h
    rw [hasRun_cons, Bool.or_eq_false_iff] at h
    obtain ⟨n, hn⟩ := ih (e.after offset + bs.length) h.2
    refine ⟨e.after offset - offset + bs.length + n, fun rest => ?_⟩
    rw [segRuns_mark h.1, hn]
    exact Prod.ext (Nat.add_assoc ..).symm rfl

/-- Behind segments with a run the bytes that follow count to the last of their runs. -/
theorem segRuns_of_hasRun (segs : List Seg) : ∀ offset, hasRun segs = true →
    ∃ (n : ℕ) (pre : List CompressedRun) (q : CompressedRun), ∀ rest, segRuns symbianV6hack offset segs rest =
      (n, pre ++ { q with other := q.other + rest.1 } :: rest.2) := by
  induction segs with
  | nil => exact fun _ h => Bool.noConfusion h
  | cons seg segs ih =>
    rcases seg with ⟨e, bs⟩
    intro offset h
    by_cases he : e.isRun = false
    · rw [hasRun_cons, he, Bool.false_or] at h
      obtain ⟨n, pre, q, hn⟩ := ih (e.after offset + bs.length) h
      refine ⟨e.after offset - offset + bs.length + n, pre, q, fun rest => ?_⟩
      rw [segRuns_mark he, hn]
    · obtain ⟨words, compressed, rfl⟩ := isRun_iff he
      cases hsegs : hasRun segs with
      | true =>
        obtain ⟨n, pre, q, hn⟩ := ih (Event.after offset (.run words compressed) + bs.length) hsegs
        refine ⟨0, ⟨compressedSize symbianV6hack words compressed, sizeWithPadding offset words, bs.length + n⟩ :: pre, q,
          fun rest => ?_⟩
        rw [segRuns, hn]
        rfl
      | false =>
        obtain ⟨n, hn⟩ := @segRuns_of_not_hasRun symbianV6hack segs
          (Event.after offset (.run words compressed) + bs.length) hsegs
        refine ⟨0, [], ⟨compressedSize symbianV6hack words compressed, sizeWithPadding offset words, bs.length + n⟩,
          fun rest => ?_⟩
        rw [segRuns, hn, Nat.add_assoc]
        rfl

end

/-! ### Segments are known from their stream -/

theorem marksOf_cons (e : Event) (bs : Bytes) (segs : List Seg) (pos : ℕ) : ∃ behind,
    marksOf pos ((e, bs) :: segs) = ⟨pos, e.type⟩ :: behind := by
  cases e with
  | start type => exact ⟨_, rfl⟩
  | stop => exact ⟨_, rfl⟩
  | run words compressed => exact ⟨_, rfl⟩
  | align => exact ⟨_, rfl⟩
  | enquire k => exact ⟨_, rfl⟩

/-- Marks and buffer determine the segments. -/
theorem segs_eq : ∀ (segs segs' : List Seg) (pos : ℕ) (lead lead' : Bytes),
    marksOf (pos + lead.length) segs = marksOf (pos + lead'.length) segs' →
    lead ++ buffer segs = lead' ++ buffer segs' → lead = lead' ∧ segs = segs'
  | [], [], pos, lead, lead', _, hbuffer => by
    simp only [buffer, List.flatMap_nil, List.append_nil] at hbuffer
    exact ⟨hbuffer, rfl⟩
  | [], (e, bs) :: segs', pos, lead, lead', hmarks, _ => by
    obtain ⟨behind, hcons⟩ := marksOf_cons e bs segs' (pos + lead'.length)
    rw [hcons] at hmarks
    exact absurd hmarks (List.cons_ne_nil _ _).symm
  | (e, bs) :: segs, [], pos, lead, lead', hmarks, _ => by
    obtain ⟨behind, hcons⟩ := marksOf_cons e bs segs (pos + lead.length)
    rw [hcons] at hmarks
    exact absurd hmarks (List.cons_ne_nil _ _)
  | (e, bs) :: segs, (e', bs') :: segs', pos, lead, lead', hmarks, hbuffer => by
    obtain ⟨behind, hcons⟩ := marksOf_cons e bs segs (pos + lead.length)
    obtain ⟨behind', hcons'⟩ := marksOf_cons e' bs' segs' (pos + lead'.length)
    have hhead := hmarks
    rw [hcons, hcons', List.cons.injEq, Mark.mk.injEq] at hhead
    obtain ⟨⟨hpos, htype⟩, -⟩ := hhead
    have hlength : lead.length = lead'.length := Nat.add_left_cancel hpos
    obtain ⟨rfl, hrest⟩ := List.append_inj hbuffer hlength
    have hsplit : ∀ (f : Event) (b : Bytes) (ss : List Seg), buffer ((f, b) :: ss) = f.bytes ++ (b ++ buffer ss) := by
      intro f b ss
      rw [buffer, List.flatMap_cons, List.append_assoc]
      rfl
    rw [hsplit, hsplit] at hrest
    rw [marksOf, marksOf] at hmarks
    by_cases he : e.isRun = false
    · obtain rfl : e = e' := by
        cases e with
        | run words compressed => exact Bool.noConfusion he
        | start type => cases e' <;> simp_all [Event.type]
        | stop => cases e' <;> simp_all [Event.type]
        | align => cases e' <;> simp_all [Event.type]
        | enquire k => cases e' <;> simp_all [Event.type]
      rw [List.append_cancel_left_eq] at hrest hmarks
      obtain ⟨rfl, rfl⟩ := segs_eq segs segs' _ bs bs' hmarks hrest
      exact ⟨rfl, rfl⟩
    · obtain ⟨words, compressed, rfl⟩ := isRun_iff he
      obtain ⟨compressed', rfl⟩ : ∃ compressed', e' = .run words compressed' := by
        cases e' with
        | run words' compressed' => exact ⟨compressed', by simp_all [Event.type]⟩
        | start type => exact MarkType.noConfusion htype
        | stop => exact MarkType.noConfusion htype
        | align => exact MarkType.noConfusion htype
        | enquire k => exact MarkType.noConfusion htype
      have hends := hmarks
      simp only [Event.marks, List.cons_append, List.cons.injEq, Mark.mk.injEq, List.nil_append] at hends
      obtain ⟨-, ⟨hstop, -⟩, -⟩ := hends
      have hsize : compressed.length = compressed'.length := by omega
      change compressed ++ (bs ++ buffer segs) = compressed' ++ (bs' ++ buffer segs') at hrest
      obtain ⟨rfl, hback⟩ := List.append_inj hrest hsize
      rw [List.append_cancel_left_eq] at hmarks
      obtain ⟨rfl, rfl⟩ := segs_eq segs segs' _ bs bs' hmarks hback
      exact ⟨rfl, rfl⟩

theorem streamOf_inj {lead lead' : Bytes} {segs segs' : List Seg} (h : streamOf lead segs = streamOf lead' segs') :
    lead = lead' ∧ segs = segs' := by
  rw [streamOf, streamOf, ResourceDataStream.mk.injEq] at h
  refine segs_eq segs segs' 0 lead lead' ?_ h.1
  rw [Nat.zero_add, Nat.zero_add]
  exact h.2.1

end GnuPoc.Rcomp
