import GnuPoc.Deflate.Matches

/-!
# GnuPoc.Deflate.DeflateBounds — the bytes that `DoDeflateL` reads

The loop does what the lazy parse of longest matches does.  When it takes a match it enters the positions that are
skipped, up to the last one of the match, and entering a position reads two bytes behind it: so a match that is taken
has to end two bytes before the end of the buffer.
-/

namespace GnuPoc.Deflate

open GnuPoc.Lib

variable {buffer : List UInt8}

/-! ### The skipped positions -/

theorem fillLoop_ok {e : ℕ} (hlen : buffer.length < 2 ^ 31) (he : e + 2 < buffer.length)
    (hfits : ∀ q, q ≤ e → DistanceFits buffer q) {ptr : ℕ} {hash : HDeflateHash} (hE : Entered buffer (ptr + 1) hash)
    (hptr : ptr < e) : ∃ hash', fillLoop buffer e ptr hash = .ok (e, hash') := by
  obtain ⟨offset, hash', hfirst, _, hE'⟩ := First_entered hE (by omega) hlen (hfits _ hptr)
  rw [fillLoop, hfirst, ok_bind]
  dsimp only
  by_cases hlt : ptr + 1 < e
  · rw [if_pos hlt]
    exact fillLoop_ok hlen he hfits hE' hlt
  · rw [if_neg hlt, show ptr + 1 = e by omega]
    exact ⟨hash', rfl⟩
termination_by e - ptr

/-- The positions are entered up to the last one, and so two bytes behind it have been read. -/
theorem fillLoop_entered {e : ℕ} (hlen : buffer.length < 2 ^ 31) {ptr : ℕ} {hash : HDeflateHash}
    (hE : Entered buffer (ptr + 1) hash) (hptr : ptr < e) {r : ℕ × HDeflateHash}
    (h : fillLoop buffer e ptr hash = .ok r) : r.1 = e ∧ e + 2 < buffer.length ∧ Entered buffer (e + 1) r.2 := by
  rw [fillLoop] at h
  obtain ⟨first, hfirst, h⟩ := bind_eq_ok.mp h
  obtain ⟨hpos, hfit⟩ := First_fits hE hfirst
  obtain ⟨offset, hash', hfirst', _, hE'⟩ := First_entered hE hpos hlen hfit
  obtain rfl : ((offset : ℤ), hash') = first := Except.ok.inj (hfirst'.symm.trans hfirst)
  dsimp only at h
  by_cases hlt : ptr + 1 < e
  · rw [if_pos hlt] at h
    exact fillLoop_entered hlen hE' hlt h
  · obtain rfl : ptr + 1 = e := by omega
    rw [if_neg hlt] at h
    obtain rfl : (ptr + 1, hash') = r := Except.ok.inj h
    exact ⟨rfl, hpos, hE'⟩
termination_by e - ptr

/-! ### A match against the least length -/

theorem Found.lt_iff {pos found k : ℕ} (h : Found buffer pos found) (hk : k = 0 ∨ KDeflateMinLength ≤ k) :
    found >>> 16 < k ↔ matchLength buffer pos < k := by
  have hle := h.le
  rcases hk with rfl | hk
  · simp
  · refine ⟨fun hlt => ?_, fun hlt => by omega⟩
    by_contra hnot
    have := h.eq (by omega)
    omega

/-- An offset stands below the length: so a match of the least length is greater than the bound of the source. -/
theorem Found.le_iff {pos found : ℕ} (h : Found buffer pos found) :
    found ≤ KDeflateMinLength <<< 16 ↔ matchLength buffer pos < KDeflateMinLength := by
  rw [← h.lt_iff (.inr le_rfl)]
  rcases h.isMatch with rfl | ⟨back, hpositive, hle, _, heq, _⟩
  · simp [KDeflateMinLength]
  · have hback : back < 2 ^ 16 := Nat.lt_of_le_of_lt hle (by decide)
    rw [← Nat.shiftLeft_add_eq_or_of_lt hback, Nat.shiftLeft_eq] at heq
    have hshift : KDeflateMinLength <<< 16 = 3 * 2 ^ 16 := rfl
    have hleast : KDeflateMinLength = 3 := rfl
    omega

/-! ### One turn -/

/-- The position of the loop and the length of the match that is pending. -/
def DeflateState.lazy (s : DeflateState) : ℕ × ℕ := (s.ptr, s.prev >>> 16)

/-- The positions before this one have been entered, and what is pending is a match of the position before. -/
structure Ready (buffer : List UInt8) (s : DeflateState) : Prop where
  entered : Entered buffer s.ptr s.hash
  pending : s.prev = 0 ∨ 0 < s.ptr ∧ KDeflateMinLength ≤ s.prev >>> 16 ∧ IsMatch buffer (s.ptr - 1) s.prev

/-- The pending match, when it is taken, ends two bytes before the end of the buffer. -/
def TakenInside (buffer : List UInt8) (t : ℕ × ℕ) : Prop :=
  matchLength buffer t.1 < t.2 → t.1 + t.2 < buffer.length

/-- The parse, with the matches that are the longest ones. -/
noncomputable def parseStep (buffer : List UInt8) : ℕ × ℕ → ℕ × ℕ :=
  lazyStep (matchLength buffer) KDeflateMinLength

variable {s : DeflateState}

theorem Ready.lt_or (h : Ready buffer s) : s.prev >>> 16 = 0 ∨ KDeflateMinLength ≤ s.prev >>> 16 := by
  rcases h.pending with h0 | ⟨_, hleast, _⟩
  · exact .inl (by rw [h0]; rfl)
  · exact .inr hleast

theorem Ready.taken (h : Ready buffer s) (htake : matchLength buffer s.ptr < s.prev >>> 16) :
    0 < s.ptr ∧ KDeflateMinLength ≤ s.prev >>> 16 := by
  rcases h.pending with h0 | ⟨hpos, hleast, _⟩
  · rw [h0] at htake
    exact absurd htake (Nat.not_lt_zero _)
  · exact ⟨hpos, hleast⟩

/-- A turn that does not take the match: it keeps the one that was found, or nothing is pending. -/
theorem deflateTurn_keep (hready : Ready buffer s) (hpos : s.ptr + 2 < buffer.length) {found : ℕ}
    {hash : HDeflateHash} (hmatch : Match buffer s.hash s.ptr = .ok (found, hash)) (hfound : Found buffer s.ptr found)
    (hE : Entered buffer (s.ptr + 1) hash) (hkeep : ¬ matchLength buffer s.ptr < s.prev >>> 16) :
    ∃ s' segments, deflateTurn buffer s = .ok (s', segments) ∧ Ready buffer s' ∧ s'.lazy = parseStep buffer s.lazy := by
  have hnot : ¬ found >>> 16 < s.prev >>> 16 := (hfound.lt_iff hready.lt_or).not.mpr hkeep
  have hbyte := List.getElem?_eq_getElem (show s.ptr < buffer.length by omega)
  rw [deflateTurn, hmatch, ok_bind]
  dsimp only
  rw [if_neg hnot]
  by_cases hshort : matchLength buffer s.ptr < KDeflateMinLength
  · rw [if_pos (hfound.le_iff.mpr hshort), elementAt_nat hbyte, ok_bind]
    refine ⟨_, _, rfl, ⟨hE, .inl ?_⟩, ?_⟩
    · rcases hready.pending with h0 | ⟨_, hleast, _⟩
      · exact h0
      · omega
    · exact (lazyStep_skip hkeep hshort).symm
  · have heq := hfound.eq (Nat.le_of_not_lt hshort)
    have hready' : Ready buffer ⟨s.ptr + 1, found, hash⟩ :=
      ⟨hE, .inr ⟨Nat.succ_pos _, by dsimp only; omega, hfound.isMatch⟩⟩
    have hstep : DeflateState.lazy ⟨s.ptr + 1, found, hash⟩ = parseStep buffer s.lazy := by
      rw [parseStep, DeflateState.lazy, DeflateState.lazy, lazyStep_keep hkeep hshort, heq]
    rw [if_neg (hfound.le_iff.not.mpr hshort)]
    by_cases hprev : s.prev ≠ 0
    · obtain ⟨hptr, -⟩ := hready.pending.resolve_left hprev
      have hbefore := List.getElem?_eq_getElem (show s.ptr - 1 < buffer.length by omega)
      rw [if_pos hprev, show (s.ptr : ℤ) - 1 = ((s.ptr - 1 : ℕ) : ℤ) by omega, elementAt_nat hbefore, ok_bind]
      exact ⟨_, _, rfl, hready', hstep⟩
    · rw [if_neg hprev]
      exact ⟨_, _, rfl, hready', hstep⟩

theorem deflateTurn_take (hready : Ready buffer s) {found : ℕ} {hash : HDeflateHash}
    (hmatch : Match buffer s.hash s.ptr = .ok (found, hash)) (hfound : Found buffer s.ptr found)
    (htake : matchLength buffer s.ptr < s.prev >>> 16) :
    deflateTurn buffer s = fillLoop buffer (s.ptr + (s.prev >>> 16) - 2) s.ptr hash >>= fun r =>
      .ok (⟨r.1 + 1, 0, r.2⟩, [segmentOf s.prev]) := by
  rw [deflateTurn, hmatch, ok_bind]
  dsimp only
  rw [if_pos ((hfound.lt_iff hready.lt_or).mpr htake)]
  rfl

theorem parseStep_take {e : ℕ} {hash : HDeflateHash} (hptr : 0 < s.ptr)
    (hleast : KDeflateMinLength ≤ s.prev >>> 16) (he : e = s.ptr + (s.prev >>> 16) - 2)
    (htake : matchLength buffer s.ptr < s.prev >>> 16) :
    DeflateState.lazy ⟨e + 1, 0, hash⟩ = parseStep buffer s.lazy := by
  have hleast' : KDeflateMinLength = 3 := rfl
  have hstep : parseStep buffer s.lazy = (s.ptr - 1 + (s.prev >>> 16), 0) := lazyStep_take htake
  have hptr' : e + 1 = s.ptr - 1 + (s.prev >>> 16) := by omega
  rw [hstep, ← hptr', DeflateState.lazy, Nat.zero_shiftRight]

theorem deflateTurn_ok (hlen : buffer.length < 2 ^ 31) (hready : Ready buffer s)
    (hpos : s.ptr + 2 < buffer.length) (hfits : ∀ q, q + 2 < buffer.length → DistanceFits buffer q)
    (hinside : TakenInside buffer s.lazy) :
    ∃ s' segments, deflateTurn buffer s = .ok (s', segments) ∧ Ready buffer s' ∧ s'.lazy = parseStep buffer s.lazy := by
  obtain ⟨found, hash, hmatch, hfound, hE⟩ := Match_ok hready.entered hpos hlen (hfits _ hpos)
  by_cases htake : matchLength buffer s.ptr < s.prev >>> 16
  · obtain ⟨hptr, hleast⟩ := hready.taken htake
    have hleast' : KDeflateMinLength = 3 := rfl
    have hend : s.ptr + (s.prev >>> 16) < buffer.length := hinside htake
    obtain ⟨hash', hfill⟩ := fillLoop_ok hlen (show s.ptr + (s.prev >>> 16) - 2 + 2 < buffer.length by omega)
      (fun q hq => hfits q (by omega)) hE (by omega)
    obtain ⟨-, -, hE'⟩ := fillLoop_entered hlen hE (by omega) hfill
    rw [deflateTurn_take hready hmatch hfound htake, hfill, ok_bind]
    exact ⟨_, _, rfl, ⟨hE', .inl rfl⟩, parseStep_take hptr hleast rfl htake⟩
  · exact deflateTurn_keep hready hpos hmatch hfound hE htake

/-- A turn in which nothing undefined is done has entered its positions, and the match that it takes ends inside. -/
theorem deflateTurn_inside {s s' : DeflateState} {segments : List Segment} (hlen : buffer.length < 2 ^ 31)
    (hready : Ready buffer s) (h : deflateTurn buffer s = .ok (s', segments)) :
    Ready buffer s' ∧ s'.lazy = parseStep buffer s.lazy ∧ TakenInside buffer s.lazy := by
  obtain ⟨_, hmatch, -⟩ := bind_eq_ok.mp h
  obtain ⟨_, hfirst, -⟩ := bind_eq_ok.mp hmatch
  obtain ⟨hpos, hfit⟩ := First_fits hready.entered hfirst
  obtain ⟨found, hash, hmatch, hfound, hE⟩ := Match_ok hready.entered hpos hlen hfit
  by_cases htake : matchLength buffer s.ptr < s.prev >>> 16
  · obtain ⟨hptr, hleast⟩ := hready.taken htake
    have hleast' : KDeflateMinLength = 3 := rfl
    rw [deflateTurn_take hready hmatch hfound htake] at h
    obtain ⟨r, hfill, h⟩ := bind_eq_ok.mp h
    obtain ⟨hr, hend, hE'⟩ := fillLoop_entered hlen hE (by omega) hfill
    obtain ⟨rfl, -⟩ := Prod.mk.inj (Except.ok.inj h)
    refine ⟨⟨?_, .inl rfl⟩, parseStep_take hptr hleast hr htake, fun _ => ?_⟩
    · dsimp only
      rw [hr]
      exact hE'
    · dsimp only [DeflateState.lazy]
      omega
  · obtain ⟨t, segments', hturn, hready', hstep⟩ := deflateTurn_keep hready hpos hmatch hfound hE htake
    obtain ⟨rfl, -⟩ := Prod.mk.inj (Except.ok.inj (hturn.symm.trans h))
    exact ⟨hready', hstep, fun hlt => absurd hlt htake⟩

/-! ### All turns -/

theorem Ready.advances (h : Ready buffer s) : s.ptr < (parseStep buffer s.lazy).1 := by
  have hleast' : KDeflateMinLength = 3 := rfl
  by_cases htake : matchLength buffer s.ptr < s.prev >>> 16
  · obtain ⟨hptr, hleast⟩ := h.taken htake
    have hstep : parseStep buffer s.lazy = (s.ptr - 1 + (s.prev >>> 16), 0) := lazyStep_take htake
    rw [hstep]
    dsimp only
    omega
  · by_cases hshort : matchLength buffer s.ptr < KDeflateMinLength
    · have hstep : parseStep buffer s.lazy = (s.ptr + 1, s.prev >>> 16) := lazyStep_skip htake hshort
      rw [hstep]
      exact Nat.lt_succ_self _
    · have hstep : parseStep buffer s.lazy = (s.ptr + 1, matchLength buffer s.ptr) := lazyStep_keep htake hshort
      rw [hstep]
      exact Nat.lt_succ_self _

theorem exists_ok_bind {α β : Type} {x : Except Fault α} {f : α → Except Fault β} {a : α} (h : x = .ok a) :
    (∃ b, (x >>= f) = .ok b) ↔ ∃ b, f a = .ok b := by
  rw [h, ok_bind]

/-- From a position on, the loop does nothing undefined when no match is taken that ends too late, and no distance is
too great. -/
theorem deflateLoop_ok_iff (hlen : buffer.length < 2 ^ 31) :
    ∀ (turns : ℕ) (s : DeflateState), Ready buffer s → s.ptr + 2 < buffer.length → buffer.length ≤ s.ptr + turns →
      ((∃ r, deflateLoop buffer turns s = .ok r) ↔
        (∀ t, LazyReach (matchLength buffer) KDeflateMinLength (buffer.length - 2) s.lazy t →
          t.1 + 2 < buffer.length → TakenInside buffer t) ∧
        ∀ q, q + 2 < buffer.length → DistanceFits buffer q)
  | 0, s, _, hpos, hturns => by omega
  | turns + 1, s, hready, hpos, hturns => by
    have hlast : s.lazy.1 < buffer.length - 2 := by
      dsimp only [DeflateState.lazy]
      omega
    rw [forall_lazyReach hlast]
    -- one turn and what comes after it, as soon as the turn is known to be defined
    have hafter : ∀ s' segments, deflateTurn buffer s = .ok (s', segments) → Ready buffer s' →
        s'.lazy = parseStep buffer s.lazy →
        ((∃ r, deflateLoop buffer (turns + 1) s = .ok r) ↔
          (∀ t, LazyReach (matchLength buffer) KDeflateMinLength (buffer.length - 2) (parseStep buffer s.lazy) t →
            t.1 + 2 < buffer.length → TakenInside buffer t) ∧
          ∀ q, q + 2 < buffer.length → DistanceFits buffer q) := by
      intro s' segments hturn hready' hstep
      have hgreater : s.ptr < s'.ptr := by
        have := hready.advances
        rw [← hstep] at this
        exact this
      rw [deflateLoop, exists_ok_bind hturn]
      dsimp only
      by_cases hmore : s'.ptr + KDeflateMinLength - 1 < buffer.length
      · have hpos' : s'.ptr + 2 < buffer.length := hmore
        rw [if_pos hmore, ← hstep, ← deflateLoop_ok_iff hlen turns s' hready' hpos' (by omega)]
        constructor
        · rintro ⟨r, hr⟩
          obtain ⟨rest, hrest, -⟩ := bind_eq_ok.mp hr
          exact ⟨rest, hrest⟩
        · rintro ⟨⟨ptr, rest⟩, hrest⟩
          exact ⟨_, by rw [hrest, ok_bind]; rfl⟩
      · have hend : buffer.length ≤ s'.ptr + 2 := Nat.le_of_not_lt hmore
        rw [if_neg hmore]
        refine iff_of_true ?_ ⟨fun t ht hin => ?_, fun q hq => hready'.entered.fits q (by omega)⟩
        · by_cases hprev : s'.prev ≠ 0
          · rw [if_pos hprev]
            exact ⟨_, rfl⟩
          · rw [if_neg hprev]
            exact ⟨_, rfl⟩
        · rw [← hstep] at ht
          obtain rfl := lazyReach_of_le ht (by dsimp only [DeflateState.lazy]; omega)
          dsimp only [DeflateState.lazy] at hin
          omega
    constructor
    · rintro ⟨r, hr⟩
      obtain ⟨⟨s', segments⟩, hturn, -⟩ := bind_eq_ok.mp hr
      obtain ⟨hready', hstep, hinside⟩ := deflateTurn_inside hlen hready hturn
      obtain ⟨hlater, hfits⟩ := (hafter s' segments hturn hready' hstep).mp ⟨r, hr⟩
      exact ⟨⟨fun _ => hinside, hlater⟩, hfits⟩
    · rintro ⟨⟨hnow, hlater⟩, hfits⟩
      obtain ⟨s', segments, hturn, hready', hstep⟩ := deflateTurn_ok hlen hready hpos hfits (hnow hpos)
      exact (hafter s' segments hturn hready' hstep).mpr ⟨hlater, hfits⟩

/-- `DoDeflateL` reads inside of the buffer, and does nothing undefined, exactly when the buffer has three bytes, no
match that the lazy parse takes ends at the last byte or at the one before it, and a hash value is never new so far
from the start that the distance of the initial entry is no `TInt`. -/
theorem DoDeflateL_ok_iff (buffer : List UInt8) (hlen : buffer.length < 2 ^ 31) :
    (∃ r, DoDeflateL buffer = .ok r) ↔
      2 < buffer.length ∧
      (∀ p pending, LazyReach (matchLength buffer) KDeflateMinLength (buffer.length - 2) (0, 0) (p, pending) →
        p + 2 < buffer.length → matchLength buffer p < pending → p + pending < buffer.length) ∧
      ∀ q, q + 2 < buffer.length → 2 ^ 31 ≤ q + 4097 →
        ∃ r < q, HDeflateHash.Hash buffer r = HDeflateHash.Hash buffer q := by
  have hready : Ready buffer ⟨0, 0, .NewLC buffer.length⟩ := ⟨NewLC_entered, .inl rfl⟩
  have hlazy : DeflateState.lazy ⟨0, 0, .NewLC buffer.length⟩ = (0, 0) := by rw [DeflateState.lazy, Nat.zero_shiftRight]
  by_cases hpos : 2 < buffer.length
  · rw [DoDeflateL, deflateLoop_ok_iff hlen _ _ hready (by dsimp only; omega) (by dsimp only; omega), hlazy]
    constructor
    · rintro ⟨hinside, hfits⟩
      exact ⟨hpos, fun p pending hreach => hinside (p, pending) hreach, hfits⟩
    · rintro ⟨-, hinside, hfits⟩
      exact ⟨fun t hreach => hinside t.1 t.2 hreach, hfits⟩
  · refine iff_of_false ?_ fun h => hpos h.1
    rintro ⟨r, hr⟩
    obtain ⟨_, hturn, -⟩ := bind_eq_ok.mp hr
    obtain ⟨_, hmatch, -⟩ := bind_eq_ok.mp hturn
    obtain ⟨_, hfirst, -⟩ := bind_eq_ok.mp hmatch
    obtain ⟨hin, -⟩ := First_fits hready.entered hfirst
    exact hpos (by dsimp only at hin; omega)

/-- Two bytes stand behind the match that is taken here. -/
theorem DoDeflateL_ok_sample : ([97, 98, 99, 100, 97, 98, 99, 100, 1, 2] : List UInt8).length < 2 ^ 31 ∧
    (∃ r, DoDeflateL [97, 98, 99, 100, 97, 98, 99, 100, 1, 2] = .ok r) ∧
    ∀ p pending, LazyReach (matchLength [97, 98, 99, 100, 97, 98, 99, 100, 1, 2]) KDeflateMinLength 8 (0, 0) (p, pending) →
      p + 2 < 10 → matchLength [97, 98, 99, 100, 97, 98, 99, 100, 1, 2] p < pending → p + pending < 10 := by
  have hlen : ([97, 98, 99, 100, 97, 98, 99, 100, 1, 2] : List UInt8).length < 2 ^ 31 := by decide
  have hok : (DoDeflateL [97, 98, 99, 100, 97, 98, 99, 100, 1, 2]).isOk = true := by decide +kernel
  have hrun : ∃ r, DoDeflateL [97, 98, 99, 100, 97, 98, 99, 100, 1, 2] = .ok r := by
    rcases hr : DoDeflateL [97, 98, 99, 100, 97, 98, 99, 100, 1, 2] with e | r
    · rw [hr] at hok
      exact absurd hok (by rintro ⟨⟩)
    · exact ⟨r, rfl⟩
  exact ⟨hlen, hrun, ((DoDeflateL_ok_iff _ hlen).mp hrun).2.1⟩

/-- Five equal bytes: the match of the last four is taken, and its last positions are entered. -/
theorem five_equal_outside :
    ¬ ∀ buffer : List UInt8, KDeflateMinLength < buffer.length → buffer.length < 2 ^ 31 → ∃ r, DoDeflateL buffer = .ok r := by
  intro h
  obtain ⟨r, hr⟩ := h [97, 97, 97, 97, 97] (by decide) (by decide)
  have hfails : (DoDeflateL [97, 97, 97, 97, 97]).isOk = false := by decide +kernel
  rw [hr] at hfails
  exact absurd hfails (by rintro ⟨⟩)

end GnuPoc.Deflate
