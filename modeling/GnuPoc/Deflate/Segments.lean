import GnuPoc.Deflate.DeflateBounds

/-!
# GnuPoc.Deflate.Segments — the segments of a buffer give the buffer (`deflate.cpp`)

What has been handed on expands to the bytes before the position of the loop, or before the position where the pending
match begins.
-/

namespace GnuPoc.Deflate

open GnuPoc.Lib

/-! ### The bytes of segments -/

/-- The bytes with those of a segment behind them. -/
def Segment.put (out : List UInt8) : Segment → List UInt8
  | literal byte => out ++ [byte]
  | copy aLength aDistance => copyBack aDistance aLength out

/-- The bytes that segments stand for, behind others. -/
def expand (out : List UInt8) (segments : List Segment) : List UInt8 := segments.foldl Segment.put out

/-- A copy that the format has codes for, from bytes that are there. -/
def Segment.Within (available : ℕ) : Segment → Prop
  | literal _ => True
  | copy aLength aDistance => KDeflateMinLength ≤ aLength ∧ aLength ≤ KDeflateMaxLength ∧ 0 < aDistance ∧
    aDistance ≤ KDeflateMaxDistance ∧ aDistance ≤ available

/-- Every copy is one of bytes that are there. -/
def Sound : List UInt8 → List Segment → Prop
  | _, [] => True
  | out, segment :: segments => segment.Within out.length ∧ Sound (segment.put out) segments

theorem expand_cons (out : List UInt8) (segment : Segment) (segments : List Segment) :
    expand out (segment :: segments) = expand (segment.put out) segments := rfl

theorem expand_append (out : List UInt8) (segments segments' : List Segment) :
    expand out (segments ++ segments') = expand (expand out segments) segments' := List.foldl_append

theorem sound_append {out : List UInt8} {segments segments' : List Segment} :
    Sound out (segments ++ segments') ↔ Sound out segments ∧ Sound (expand out segments) segments' := by
  induction segments generalizing out with
  | nil => exact ⟨fun h => ⟨trivial, h⟩, And.right⟩
  | cons segment segments ih => rw [List.cons_append, Sound, Sound, ih, expand_cons, and_assoc]

theorem expand_literals (out bytes : List UInt8) : expand out (bytes.map .literal) = out ++ bytes := by
  induction bytes generalizing out with
  | nil => exact (List.append_nil out).symm
  | cons byte bytes ih => rw [List.map_cons, expand_cons, ih, Segment.put, List.append_assoc, List.singleton_append]

theorem sound_literals (out bytes : List UInt8) : Sound out (bytes.map .literal) := by
  induction bytes generalizing out with
  | nil => trivial
  | cons byte bytes ih => exact ⟨trivial, ih _⟩

theorem Segment.Within.length_put {out : List UInt8} {segment : Segment} (h : segment.Within out.length) :
    out.length < (segment.put out).length := by
  cases segment with
  | literal byte => simp [Segment.put]
  | copy aLength aDistance =>
    obtain ⟨hleast, -, hpos, -, hle⟩ := h
    have hleast' : 3 ≤ aLength := hleast
    rw [Segment.put, length_copyBack hpos _ hle]
    omega

variable {segments : List Segment}

theorem Sound.length_le {out : List UInt8} (h : Sound out segments) :
    out.length + segments.length ≤ (expand out segments).length := by
  induction segments generalizing out with
  | nil => exact le_rfl
  | cons segment segments ih =>
    have hfirst := h.1.length_put
    have hrest := ih h.2
    rw [expand_cons, List.length_cons]
    omega

/-! ### One turn -/

variable {buffer : List UInt8}

/-- How far the segments that have been handed on reach. -/
def DeflateState.reached (s : DeflateState) : ℕ := if s.prev ≠ 0 then s.ptr - 1 else s.ptr

/-- The state between two turns: the pending match is one that the format has a code for. -/
structure Pending (buffer : List UInt8) (s : DeflateState) : Prop where
  ready : Ready buffer s
  short : s.prev >>> 16 ≤ KDeflateMaxLength

theorem IsMatch.back {pos found : ℕ} (h : IsMatch buffer pos found) (hne : found ≠ 0) :
    ∃ back, 0 < back ∧ back ≤ KDeflateMaxDistance ∧ back ≤ pos ∧ Agrees buffer (pos - back) pos (found >>> 16) ∧
      segmentOf found = .copy (found >>> 16) back := by
  obtain ⟨back, hpositive, hle, hpos, heq, hagrees⟩ := h.resolve_left hne
  refine ⟨back, hpositive, hle, hpos, hagrees, ?_⟩
  have hback : back < 2 ^ 16 := lt_of_le_of_lt hle (by decide)
  rw [← Nat.shiftLeft_add_eq_or_of_lt hback] at heq
  rw [segmentOf]
  congr 1
  omega

theorem Pending.put {s : DeflateState} (h : Pending buffer s) (hne : s.prev ≠ 0) :
    expand (buffer.take s.reached) [segmentOf s.prev] = buffer.take (s.ptr - 1 + (s.prev >>> 16)) ∧
      Sound (buffer.take s.reached) [segmentOf s.prev] ∧ s.ptr - 1 + (s.prev >>> 16) ≤ buffer.length := by
  obtain ⟨hptr, hleast, hmatch⟩ := h.ready.pending.resolve_left hne
  obtain ⟨back, hpositive, hle, hpos, hagrees, hsegment⟩ := hmatch.back hne
  have hfits := hagrees.fits
  have hreached : s.reached = s.ptr - 1 := if_pos hne
  have hlen : (buffer.take (s.ptr - 1)).length = s.ptr - 1 := by
    rw [List.length_take]
    omega
  rw [hreached, hsegment]
  refine ⟨copyBack_take hpositive hpos hagrees, ⟨⟨hleast, h.short, hpositive, hle, ?_⟩, trivial⟩, hfits⟩
  rw [hlen]
  exact hpos

/-- What a turn can do: put a match off, take the one put off, or emit a byte. -/
theorem deflateTurn_cases {s s' : DeflateState} (hlen : buffer.length < 2 ^ 31)
    (hready : Ready buffer s) (h : deflateTurn buffer s = .ok (s', segments)) :
    ∃ found, Found buffer s.ptr found ∧ s.ptr < buffer.length ∧
      ((s.prev ≠ 0 ∧ s'.ptr = s.ptr - 1 + (s.prev >>> 16) ∧ s'.prev = 0 ∧ segments = [segmentOf s.prev]) ∨
        (s.prev = 0 ∧ s'.ptr = s.ptr + 1 ∧ s'.prev = 0 ∧ ∃ byte, buffer[s.ptr]? = some byte ∧
          segments = [.literal byte]) ∨
        (s.prev ≠ 0 ∧ found ≠ 0 ∧ s'.ptr = s.ptr + 1 ∧ s'.prev = found ∧ ∃ byte, buffer[s.ptr - 1]? = some byte ∧
          segments = [.literal byte]) ∨
        (s.prev = 0 ∧ found ≠ 0 ∧ s'.ptr = s.ptr + 1 ∧ s'.prev = found ∧ segments = [])) := by
  obtain ⟨_, hmatch, -⟩ := bind_eq_ok.mp h
  obtain ⟨_, hfirst, -⟩ := bind_eq_ok.mp hmatch
  obtain ⟨hpos, hfit⟩ := First_fits hready.entered hfirst
  obtain ⟨found, hash, hmatch, hfound, hE⟩ := Match_ok hready.entered hpos hlen hfit
  refine ⟨found, hfound, by omega, ?_⟩
  by_cases htake : matchLength buffer s.ptr < s.prev >>> 16
  · obtain ⟨hptr, hleast⟩ := hready.taken htake
    have hleast' : KDeflateMinLength = 3 := rfl
    rw [deflateTurn_take hready hmatch hfound htake] at h
    obtain ⟨r, hfill, h⟩ := bind_eq_ok.mp h
    obtain ⟨hr, hend, hE'⟩ := fillLoop_entered hlen hE (by omega) hfill
    obtain ⟨rfl, rfl⟩ := Prod.mk.inj (Except.ok.inj h)
    refine .inl ⟨?_, ?_, rfl, rfl⟩
    · rintro h0
      rw [h0] at htake
      exact absurd htake (Nat.not_lt_zero _)
    · dsimp only
      omega
  · have hnot : ¬ found >>> 16 < s.prev >>> 16 := (hfound.lt_iff hready.lt_or).not.mpr htake
    have hbyte := List.getElem?_eq_getElem (show s.ptr < buffer.length by omega)
    rw [deflateTurn, hmatch, ok_bind] at h
    dsimp only at h
    rw [if_neg hnot] at h
    right
    by_cases hshort : found ≤ KDeflateMinLength <<< 16
    · have hprev : s.prev = 0 := by
        have hmin := hfound.le_iff.mp hshort
        rcases hready.pending with h0 | ⟨_, hleast, _⟩
        · exact h0
        · omega
      rw [if_pos hshort, elementAt_nat hbyte, ok_bind] at h
      obtain ⟨rfl, rfl⟩ := Prod.mk.inj (Except.ok.inj h)
      exact .inl ⟨hprev, rfl, hprev, _, hbyte, rfl⟩
    · have hne : found ≠ 0 := by
        rintro rfl
        exact hshort (Nat.zero_le _)
      rw [if_neg hshort] at h
      by_cases hprev : s.prev ≠ 0
      · obtain ⟨hptr, -⟩ := hready.pending.resolve_left hprev
        have hbefore := List.getElem?_eq_getElem (show s.ptr - 1 < buffer.length by omega)
        rw [if_pos hprev, show (s.ptr : ℤ) - 1 = ((s.ptr - 1 : ℕ) : ℤ) by omega, elementAt_nat hbefore, ok_bind] at h
        obtain ⟨rfl, rfl⟩ := Prod.mk.inj (Except.ok.inj h)
        exact .inr (.inl ⟨hprev, hne, rfl, rfl, _, hbefore, rfl⟩)
      · rw [if_neg hprev] at h
        obtain ⟨rfl, rfl⟩ := Prod.mk.inj (Except.ok.inj h)
        exact .inr (.inr ⟨not_not.mp hprev, hne, rfl, rfl, rfl⟩)

theorem put_literal {pos : ℕ} {byte : UInt8} (h : buffer[pos]? = some byte) :
    expand (buffer.take pos) [.literal byte] = buffer.take (pos + 1) := by
  rw [List.take_add_one, h]
  rfl

/-- The segments of a turn lead from where the segments before it reach to where it reaches itself. -/
theorem deflateTurn_segments {s s' : DeflateState} (hlen : buffer.length < 2 ^ 31)
    (hpending : Pending buffer s) (h : deflateTurn buffer s = .ok (s', segments)) :
    Pending buffer s' ∧ expand (buffer.take s.reached) segments = buffer.take s'.reached ∧
      Sound (buffer.take s.reached) segments ∧ s'.reached ≤ buffer.length := by
  obtain ⟨hready', -, -⟩ := deflateTurn_inside hlen hpending.ready h
  obtain ⟨found, hfound, hlt, hcases⟩ := deflateTurn_cases hlen hpending.ready h
  have hlimit : found >>> 16 ≤ KDeflateMaxLength := hfound.le.trans longest_le
  rcases hcases with ⟨hne, hptr', hprev', rfl⟩ | ⟨h0, hptr', hprev', byte, hbyte, rfl⟩ |
    ⟨hne, hfound0, hptr', hprev', byte, hbyte, rfl⟩ | ⟨h0, hfound0, hptr', hprev', rfl⟩
  · obtain ⟨hput, hsound, hfits⟩ := hpending.put hne
    have hreached' : s'.reached = s.ptr - 1 + (s.prev >>> 16) := by
      rw [DeflateState.reached, if_neg (not_not.mpr hprev'), hptr']
    rw [hreached']
    exact ⟨⟨hready', by rw [hprev']; exact Nat.zero_le _⟩, hput, hsound, hfits⟩
  · have hreached : s.reached = s.ptr := if_neg (not_not.mpr h0)
    have hreached' : s'.reached = s.ptr + 1 := by rw [DeflateState.reached, if_neg (not_not.mpr hprev'), hptr']
    rw [hreached, hreached']
    exact ⟨⟨hready', by rw [hprev']; exact Nat.zero_le _⟩, put_literal hbyte, ⟨trivial, trivial⟩, hlt⟩
  · have hptr : 0 < s.ptr := (hpending.ready.pending.resolve_left hne).1
    have hreached : s.reached = s.ptr - 1 := if_pos hne
    have hreached' : s'.reached = s.ptr := by
      rw [DeflateState.reached, if_pos (by rwa [hprev']), hptr', Nat.add_sub_cancel]
    have hput := put_literal hbyte
    rw [Nat.sub_add_cancel hptr] at hput
    rw [hreached, hreached']
    exact ⟨⟨hready', by rwa [hprev']⟩, hput, ⟨trivial, trivial⟩, hlt.le⟩
  · have hreached : s.reached = s.ptr := if_neg (not_not.mpr h0)
    have hreached' : s'.reached = s.ptr := by
      rw [DeflateState.reached, if_pos (by rwa [hprev']), hptr', Nat.add_sub_cancel]
    rw [hreached, hreached']
    exact ⟨⟨hready', by rwa [hprev']⟩, rfl, trivial, hlt.le⟩

/-! ### All turns -/

/-- The emitted segments expand to what the loop has passed. -/
theorem deflateLoop_segments (hlen : buffer.length < 2 ^ 31) {turns : ℕ} {s : DeflateState} (hpending : Pending buffer s)
    {ptr : ℕ} (h : deflateLoop buffer turns s = .ok (ptr, segments)) :
    expand (buffer.take s.reached) segments = buffer.take ptr ∧ Sound (buffer.take s.reached) segments ∧
      ptr ≤ buffer.length := by
  induction turns generalizing s ptr segments with
  | zero => cases h
  | succ turns ih =>
    rw [deflateLoop] at h
    obtain ⟨⟨s', first⟩, hturn, h⟩ := bind_eq_ok.mp h
    obtain ⟨hpending', hput, hsound, hreached⟩ := deflateTurn_segments hlen hpending hturn
    dsimp only at h
    split at h
    · obtain ⟨⟨ptr', rest⟩, hrest, h⟩ := bind_eq_ok.mp h
      obtain ⟨rfl, rfl⟩ := Prod.mk.inj (Except.ok.inj h)
      obtain ⟨hputs, hsounds, hfits⟩ := ih hpending' hrest
      rw [expand_append, sound_append, hput]
      exact ⟨hputs, ⟨hsound, hsounds⟩, hfits⟩
    · split at h
      · next hprev =>
        obtain ⟨rfl, rfl⟩ := Prod.mk.inj (Except.ok.inj h)
        obtain ⟨hputs, hsounds, hfits⟩ := hpending'.put hprev
        obtain ⟨hptr, -⟩ := hpending'.ready.pending.resolve_left hprev
        have hend : s'.ptr + (s'.prev >>> 16) - 1 = s'.ptr - 1 + (s'.prev >>> 16) := by omega
        rw [expand_append, sound_append, hput, hend]
        exact ⟨hputs, ⟨hsound, hsounds⟩, hfits⟩
      · next hprev =>
        obtain ⟨rfl, rfl⟩ := Prod.mk.inj (Except.ok.inj h)
        have hsame : s'.reached = s'.ptr := if_neg hprev
        rw [hput, hsame]
        exact ⟨rfl, hsound, hsame ▸ hreached⟩

/-- The segments that a buffer is cut into give the buffer again, and every copy is of bytes that are there and has a
code. -/
theorem expand_DeflateL (buffer : List UInt8) (hlen : buffer.length < 2 ^ 31)
    (h : DeflateL buffer = .ok segments) : expand [] segments = buffer ∧ Sound [] segments := by
  have hend : ∀ {aBase : ℕ} {front : List Segment}, segments = front ++ (buffer.drop aBase).map .literal →
      expand [] front = buffer.take aBase ∧ Sound [] front ∧ aBase ≤ buffer.length →
      expand [] segments = buffer ∧ Sound [] segments := by
    rintro aBase front rfl ⟨hputs, hsounds, -⟩
    rw [expand_append, sound_append, hputs, expand_literals, List.take_append_drop]
    exact ⟨rfl, hsounds, sound_literals _ _⟩
  rw [DeflateL] at h
  split at h
  · obtain ⟨⟨aBase, front⟩, hfront, h⟩ := bind_eq_ok.mp h
    have hshort : 0 >>> 16 ≤ KDeflateMaxLength := by decide
    have hstart : Pending buffer ⟨0, 0, .NewLC buffer.length⟩ := ⟨⟨NewLC_entered, .inl rfl⟩, hshort⟩
    exact hend (Except.ok.inj h).symm (deflateLoop_segments hlen hstart hfront)
  · exact hend (Except.ok.inj h).symm ⟨rfl, trivial, Nat.zero_le _⟩

/-- The segments are lossless, they are never more than the bytes, and every copy has a code. -/
theorem DeflateL_lossless (buffer : List UInt8) (hlen : buffer.length < 2 ^ 31) {segments : List Segment}
    (h : DeflateL buffer = .ok segments) :
    expand [] segments = buffer ∧ Sound [] segments ∧ segments.length ≤ buffer.length := by
  obtain ⟨hexpand, hsound⟩ := expand_DeflateL buffer hlen h
  have hmany := hsound.length_le
  rw [hexpand, List.length_nil, Nat.zero_add] at hmany
  exact ⟨hexpand, hsound, hmany⟩

/-- Three bytes that come three times, and two more. -/
theorem DeflateL_lossless_sample : ([97, 98, 99, 97, 98, 99, 97, 98, 99, 1, 2] : List UInt8).length < 2 ^ 31 ∧
    ∃ segments, DeflateL [97, 98, 99, 97, 98, 99, 97, 98, 99, 1, 2] = .ok segments ∧
      expand [] segments = [97, 98, 99, 97, 98, 99, 97, 98, 99, 1, 2] ∧ Sound [] segments ∧ segments.length ≤ 11 := by
  have hlen : ([97, 98, 99, 97, 98, 99, 97, 98, 99, 1, 2] : List UInt8).length < 2 ^ 31 := by decide
  have hrun : DeflateL [97, 98, 99, 97, 98, 99, 97, 98, 99, 1, 2] =
      .ok [.literal 97, .literal 98, .literal 99, .copy 6 3, .literal 1, .literal 2] := by decide +kernel
  exact ⟨hlen, _, hrun, DeflateL_lossless _ hlen hrun⟩

end GnuPoc.Deflate
