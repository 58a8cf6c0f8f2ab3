import GnuPoc.Rcomp.ResourceFile

/-!
# GnuPoc.Rcomp.Patch — overwriting the links of a resource

A link is overwritten where its place holder was written.  On the segments this changes the bytes behind the
events that enquire, and none of the sizes that the other bytes depend on.
-/

namespace GnuPoc.Rcomp

open GnuPoc.Lib

/-- The bytes of a place, the first of them overwritten. -/
def overwrite (ids : ℕ → Bytes) (k : ℕ) (bs : Bytes) : Bytes := ids k ++ bs.drop (ids k).length

theorem length_overwrite {ids : ℕ → Bytes} {k : ℕ} {bs : Bytes} (h : (ids k).length ≤ bs.length) :
    (overwrite ids k bs).length = bs.length := by
  rw [overwrite, List.length_append, List.length_drop]
  omega

/-- The patch keeps every length. -/
def Keeps (f : ℕ → Bytes → Bytes) (segs : List Seg) : Prop :=
  ∀ k bs, (k, bs) ∈ places segs → (f k bs).length = bs.length

section
variable {f : ℕ → Bytes → Bytes}

theorem Keeps.tail {seg : Seg} {segs : List Seg} (h : Keeps f (seg :: segs)) : Keeps f segs := by
  intro k bs hmem
  refine h k bs ?_
  rw [show seg :: segs = [seg] ++ segs from rfl, places_append]
  exact List.mem_append_right _ hmem

theorem Keeps.head {e : Event} {bs : Bytes} {segs : List Seg} (h : Keeps f ((e, bs) :: segs)) :
    ∃ bs', Seg.patch f (e, bs) = (e, bs') ∧ bs'.length = bs.length := by
  cases e with
  | enquire k => exact ⟨f k bs, rfl, h k bs (List.mem_cons_self ..)⟩
  | start type => exact ⟨bs, rfl, rfl⟩
  | stop => exact ⟨bs, rfl, rfl⟩
  | run words compressed => exact ⟨bs, rfl, rfl⟩
  | align => exact ⟨bs, rfl, rfl⟩

theorem patched_cons {e : Event} {bs bs' : Bytes} (segs : List Seg) (h : Seg.patch f (e, bs) = (e, bs')) :
    patched f ((e, bs) :: segs) = (e, bs') :: patched f segs := by
  rw [patched, List.map_cons, h, ← patched]

variable (segs : List Seg)

theorem hasRun_patched (h : Keeps f segs) : hasRun (patched f segs) = hasRun segs := by
  induction segs with
  | nil => rfl
  | cons seg segs ih =>
    rcases seg with ⟨e, bs⟩
    obtain ⟨bs', hpatch, -⟩ := h.head
    rw [patched_cons segs hpatch, hasRun_cons, hasRun_cons, ih h.tail]

theorem otherLength_patched : ∀ offset, Keeps f segs →
    otherLength offset (patched f segs) = otherLength offset segs := by
  induction segs with
  | nil => exact fun _ _ => rfl
  | cons seg segs ih =>
    rcases seg with ⟨e, bs⟩
    intro offset h
    obtain ⟨bs', hpatch, hlen⟩ := h.head
    rw [patched_cons segs hpatch]
    cases e with
    | run words compressed => rfl
    | start type => simp only [otherLength, ih _ h.tail, hlen]
    | stop => simp only [otherLength, ih _ h.tail, hlen]
    | align => simp only [otherLength, ih _ h.tail, hlen]
    | enquire k => simp only [otherLength, ih _ h.tail, hlen]

theorem endOf_event (e : Event) {ps qs : List Piece} (h : ∀ depth offset, endOf depth offset ps = endOf depth offset qs)
    (depth offset : ℕ) : endOf depth offset (e.pieces ++ ps) = endOf depth offset (e.pieces ++ qs) := by
  cases e with
  | start type =>
    show endOf depth offset (.start type :: ps) = endOf depth offset (.start type :: qs)
    rw [endOf, endOf, h]
  | stop =>
    cases depth with
    | zero => rfl
    | succ depth => exact h depth offset
  | run words compressed =>
    show endOf depth offset (text words ++ ps) = endOf depth offset (text words ++ qs)
    rw [endOf_text, endOf_text, h]
  | align =>
    show endOf depth offset (.align :: ps) = endOf depth offset (.align :: qs)
    rw [endOf, endOf, h]
  | enquire k => exact h depth offset

theorem endOf_data {bs bs' : Bytes} (hlen : bs'.length = bs.length) {ps qs : List Piece}
    (h : ∀ depth offset, endOf depth offset ps = endOf depth offset qs) (depth offset : ℕ) :
    endOf depth offset (.data bs' :: ps) = endOf depth offset (.data bs :: qs) := by
  rw [endOf, endOf, hlen, h]

theorem endOf_patched : Keeps f segs →
    ∀ depth offset, endOf depth offset (pieces (patched f segs)) = endOf depth offset (pieces segs) := by
  induction segs with
  | nil => exact fun _ _ _ => rfl
  | cons seg segs ih =>
    rcases seg with ⟨e, bs⟩
    intro h depth offset
    obtain ⟨bs', hpatch, hlen⟩ := h.head
    rw [patched_cons segs hpatch, pieces_cons, pieces_cons]
    exact endOf_event e (endOf_data hlen (ih h.tail)) depth offset

theorem good_patched {expander : Bytes → List UInt16} (segs : List Seg) : ∀ encountered offset, Keeps f segs →
    Good expander encountered offset segs → Good expander encountered offset (patched f segs) := by
  induction segs with
  | nil => exact fun _ _ _ _ => trivial
  | cons seg segs ih =>
    rcases seg with ⟨e, bs⟩
    intro encountered offset h hgood
    obtain ⟨bs', hpatch, hlen⟩ := h.head
    rw [patched_cons segs hpatch]
    have hnext := fun enc => ih enc (e.after offset + bs.length) h.tail
    cases e with
    | run words compressed =>
      refine ⟨hgood.1, ?_⟩
      rw [hlen]
      exact hnext true hgood.2
    | start type =>
      rw [Good, hlen]
      · exact hnext encountered hgood
      · exact fun _ _ h => Event.noConfusion h
    | stop =>
      rw [Good, hlen]
      · exact hnext encountered hgood
      · exact fun _ _ h => Event.noConfusion h
    | align =>
      rw [Good, hlen]
      · exact hnext encountered hgood
      · exact fun _ _ h => Event.noConfusion h
    | enquire k =>
      rw [Good, hlen]
      · exact hnext encountered hgood
      · exact fun _ _ h => Event.noConfusion h

theorem fits_patched : ∀ offset, Keeps f segs → Fits offset segs → Fits offset (patched f segs) := by
  induction segs with
  | nil => exact fun _ _ _ => trivial
  | cons seg segs ih =>
    rcases seg with ⟨e, bs⟩
    intro offset h hfits
    obtain ⟨bs', hpatch, hlen⟩ := h.head
    rw [patched_cons segs hpatch]
    cases e with
    | run words compressed =>
      refine ⟨hfits.1, ?_, ?_⟩
      · rw [hlen, otherLength_patched segs _ h.tail]
        exact hfits.2.1
      · rw [hlen]
        exact ih _ h.tail hfits.2.2
    | start type =>
      rw [Fits, hlen]
      · exact ih _ h.tail hfits
      · exact fun _ _ h => Event.noConfusion h
    | stop =>
      rw [Fits, hlen]
      · exact ih _ h.tail hfits
      · exact fun _ _ h => Event.noConfusion h
    | align =>
      rw [Fits, hlen]
      · exact ih _ h.tail hfits
      · exact fun _ _ h => Event.noConfusion h
    | enquire k =>
      rw [Fits, hlen]
      · exact ih _ h.tail hfits
      · exact fun _ _ h => Event.noConfusion h

theorem emit_patched {e : Event} {bs bs' : Bytes} (hlen : bs'.length = bs.length) (segs : List Seg) (offset : ℕ)
    (h : Keeps f segs) : e.emit offset bs' (patched f segs) = e.emit offset bs segs := by
  cases e with
  | start type => simp only [Event.emit, endOf_data hlen (endOf_patched segs h)]
  | run words compressed =>
    simp only [Event.emit, behindRun, hlen, otherLength_patched segs _ h, hasRun_patched segs h]
  | stop => rfl
  | align => rfl
  | enquire k => rfl

theorem length_emit_patched : ∀ offset, Keeps f segs →
    (emit offset (patched f segs)).length = (emit offset segs).length := by
  induction segs with
  | nil => exact fun _ _ => rfl
  | cons seg segs ih =>
    rcases seg with ⟨e, bs⟩
    intro offset h
    obtain ⟨bs', hpatch, hlen⟩ := h.head
    rw [patched_cons segs hpatch, emit, emit, emit_patched hlen segs offset h.tail, hlen]
    simp only [List.length_append, ih _ h.tail, hlen]

theorem total_patched : ∀ offset, Keeps f segs →
    total offset (pieces (patched f segs)) = total offset (pieces segs) := by
  induction segs with
  | nil => exact fun _ _ => rfl
  | cons seg segs ih =>
    rcases seg with ⟨e, bs⟩
    intro offset h
    obtain ⟨bs', hpatch, hlen⟩ := h.head
    rw [patched_cons segs hpatch, total_pieces_cons, total_pieces_cons, hlen, ih _ h.tail]

end

/-! ### In a file -/

/-- Writing over the places, one after the other. -/
def overwritten (ids : ℕ → Bytes) (file : Bytes) (positions : List (ℕ × ℕ)) : Bytes :=
  positions.foldl (fun file site => writeAt file site.2 (ids site.1)) file

theorem sites_keys (segs : List Seg) : ∀ pos offset,
    (sites pos offset segs).map Prod.fst = (places segs).map Prod.fst := by
  induction segs with
  | nil => exact fun _ _ => rfl
  | cons seg segs ih =>
    rcases seg with ⟨e, bs⟩
    intro pos offset
    cases e with
    | enquire k => exact congrArg (k :: ·) (ih _ _)
    | start type => exact ih _ _
    | stop => exact ih _ _
    | run words compressed => exact ih _ _
    | align => exact ih _ _

/-- **Overwriting.**  The segments are in the file with their places overwritten. -/
theorem overwritten_sites (ids : ℕ → Bytes) (segs : List Seg) : ∀ (before behind : Bytes) (offset : ℕ),
    (∀ k bs, (k, bs) ∈ places segs → (ids k).length ≤ bs.length) →
    overwritten ids (before ++ emit offset segs ++ behind) (sites before.length offset segs) =
      before ++ emit offset (patched (overwrite ids) segs) ++ behind := by
  induction segs with
  | nil => exact fun _ _ _ _ => rfl
  | cons seg segs ih =>
    rcases seg with ⟨e, bs⟩
    intro before behind offset hroom
    have hkeeps : Keeps (overwrite ids) ((e, bs) :: segs) := fun k b hmem => length_overwrite (hroom k b hmem)
    have hroom' : ∀ k b, (k, b) ∈ places segs → (ids k).length ≤ b.length := fun k b hmem => by
      refine hroom k b ?_
      rw [show (e, bs) :: segs = [(e, bs)] ++ segs from rfl, places_append]
      exact List.mem_append_right _ hmem
    by_cases he : ∃ k, e = .enquire k
    · obtain ⟨k, rfl⟩ := he
      have hle := hroom k bs (List.mem_cons_self ..)
      have hfile : before ++ emit offset ((.enquire k, bs) :: segs) ++ behind =
          before ++ bs.take (ids k).length ++ (bs.drop (ids k).length ++ (emit (offset + bs.length) segs ++ behind)) := by
        show before ++ (bs ++ emit (offset + bs.length) segs) ++ behind = _
        rw [List.append_assoc before (bs.take _), ← List.append_assoc (bs.take _), List.take_append_drop]
        simp only [List.append_assoc]
      have hwrite : writeAt (before ++ emit offset ((.enquire k, bs) :: segs) ++ behind) before.length (ids k) =
          before ++ overwrite ids k bs ++ emit (offset + bs.length) segs ++ behind := by
        rw [hfile, writeAt_middle _ (List.length_take_of_le hle).symm, overwrite]
        simp only [List.append_assoc]
      have hlen : before.length + bs.length = (before ++ overwrite ids k bs).length := by
        rw [List.length_append, length_overwrite hle]
      have hnext := ih (before ++ overwrite ids k bs) behind (offset + bs.length) hroom'
      rw [← hlen] at hnext
      have hemit : emit offset (patched (overwrite ids) ((.enquire k, bs) :: segs)) =
          overwrite ids k bs ++ emit (offset + bs.length) (patched (overwrite ids) segs) := by
        show [] ++ overwrite ids k bs ++ emit (offset + (overwrite ids k bs).length) _ = _
        rw [length_overwrite hle]
        rfl
      show overwritten ids (writeAt _ _ _) (sites (before.length + bs.length) (offset + bs.length) segs) = _
      rw [hwrite, hnext, hemit]
      simp only [List.append_assoc]
    · obtain ⟨bs', hpatch, hlen⟩ := hkeeps.head
      have hsame : bs' = bs := by
        cases e with
        | enquire k => exact absurd ⟨k, rfl⟩ he
        | start type => exact (Prod.mk.inj hpatch).2.symm
        | stop => exact (Prod.mk.inj hpatch).2.symm
        | run words compressed => exact (Prod.mk.inj hpatch).2.symm
        | align => exact (Prod.mk.inj hpatch).2.symm
      subst hsame
      have hsites : sites before.length offset ((e, bs') :: segs) =
          sites (before ++ e.emit offset bs' segs ++ bs').length (e.after offset + bs'.length) segs := by
        rw [List.length_append, List.length_append]
        cases e with
        | enquire k => exact absurd ⟨k, rfl⟩ he
        | start type => rfl
        | stop => rfl
        | run words compressed => rfl
        | align => rfl
      have hnext := ih (before ++ e.emit offset bs' segs ++ bs') behind (e.after offset + bs'.length) hroom'
      rw [hsites, emit, patched_cons segs hpatch, emit, emit_patched rfl segs offset hkeeps.tail]
      simp only [List.append_assoc] at hnext ⊢
      exact hnext

end GnuPoc.Rcomp
