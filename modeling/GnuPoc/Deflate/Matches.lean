import GnuPoc.Deflate.HashChain

/-!
# GnuPoc.Deflate.Matches — `Match` finds the longest match

A match is a length, shifted by 16 bits, and the offset below it.  The loop compares the positions with the same hash
value from the nearest to the furthest, and three equal bytes have the same hash value: so a match of three bytes or more
is the longest one of the window.
-/

namespace GnuPoc.Deflate

open GnuPoc.Lib

variable {buffer : List UInt8}

/-- The length of the longest match at a position, as far back and as long as the format allows. -/
noncomputable def matchLength (buffer : List UInt8) (pos : ℕ) : ℕ :=
  longest buffer KDeflateMaxDistance KDeflateMaxLength pos

/-! ### The comparison -/

theorem getElem?_ne_of {i j : ℕ} (hi : i < buffer.length) (hj : j < buffer.length) (h : buffer[i] ≠ buffer[j]) :
    buffer[i]? ≠ buffer[j]? := by
  rw [List.getElem?_eq_getElem hi, List.getElem?_eq_getElem hj]
  exact fun heq => h (Option.some.inj heq)

/-- The comparison comes to the end, or stops behind the first byte that differs. -/
theorem compareLoop_ok {r pos aEnd k : ℕ} (hr : r < pos) (hend : aEnd ≤ buffer.length) (hk : pos + k < aEnd)
    (hsame : Agrees buffer r pos k) :
    (compareLoop buffer aEnd ((r + k : ℕ) : ℤ) (pos + k) = .ok (true, aEnd) ∧ Agrees buffer r pos (aEnd - pos)) ∨
      ∃ l, pos + l < aEnd ∧ compareLoop buffer aEnd ((r + k : ℕ) : ℤ) (pos + k) = .ok (false, pos + l + 1) ∧
        Agrees buffer r pos l ∧ buffer[r + l]? ≠ buffer[pos + l]? := by
  have hthere : r + k < buffer.length := by omega
  have hhere : pos + k < buffer.length := by omega
  rw [compareLoop, elementAt_nat (List.getElem?_eq_getElem hthere), ok_bind,
    elementAt_nat (List.getElem?_eq_getElem hhere), ok_bind]
  by_cases hne : buffer[r + k] ≠ buffer[pos + k]
  · rw [if_pos hne]
    exact .inr ⟨k, hk, rfl, hsame, getElem?_ne_of hthere hhere hne⟩
  have heq : buffer[r + k]? = buffer[pos + k]? := by
    rw [List.getElem?_eq_getElem hthere, List.getElem?_eq_getElem hhere, not_not.mp hne]
  have hmore := hsame.succ hhere heq
  rw [if_neg hne]
  by_cases hlt : pos + k + 1 < aEnd
  · rw [if_pos hlt]
    exact compareLoop_ok (k := k + 1) hr hend hlt hmore
  · rw [if_neg hlt]
    refine .inl ⟨?_, ?_⟩
    · rw [show pos + k + 1 = aEnd by omega]
      rfl
    · rw [show aEnd - pos = k + 1 by omega]
      exact hmore
termination_by aEnd - (pos + k)

/-! ### The matches of a position -/

theorem length_of_match {l offset : ℕ} (h : offset ≤ KDeflateMaxDistance) : (l <<< 16 ||| offset) >>> 16 = l := by
  have hlt : offset < 2 ^ 16 := Nat.lt_of_le_of_lt h (by decide)
  rw [← Nat.shiftLeft_add_eq_or_of_lt hlt, Nat.shiftLeft_eq, Nat.shiftRight_eq_div_pow]
  omega

/-- A length and an offset of bytes that are equal, or no match. -/
def IsMatch (buffer : List UInt8) (pos found : ℕ) : Prop :=
  found = 0 ∨ ∃ back, 0 < back ∧ back ≤ KDeflateMaxDistance ∧ back ≤ pos ∧
    found = (found >>> 16) <<< 16 ||| back ∧ Agrees buffer (pos - back) pos (found >>> 16)

theorem isMatch_of {pos l offset : ℕ} (hpositive : 0 < offset) (hle : offset ≤ KDeflateMaxDistance) (hpos : offset ≤ pos)
    (h : Agrees buffer (pos - offset) pos l) : IsMatch buffer pos (l <<< 16 ||| offset) := by
  refine .inr ⟨offset, hpositive, hle, hpos, ?_, ?_⟩
  · rw [length_of_match hle]
  · rw [length_of_match hle]
    exact h

/-- No position from `pos - offset` on, nor that one, has a longer match up to `aEnd` than the one that was found. -/
def Longest (buffer : List UInt8) (pos aEnd offset found : ℕ) : Prop :=
  ∀ r j, r < pos → pos < r + offset → pos ≤ r + KDeflateMaxDistance →
    HDeflateHash.Hash buffer r = HDeflateHash.Hash buffer pos → pos + j ≤ aEnd → Agrees buffer r pos j →
    j ≤ found >>> 16

/-- One turn of the loop: it returns a match that comes to the end, or it has the longest one so far. -/
theorem matchTurn_ok {pos aEnd offset found : ℕ} {c : UInt8} (hend : aEnd ≤ buffer.length) (hpositive : 0 < offset)
    (hle : offset ≤ KDeflateMaxDistance) (hpos : offset ≤ pos) (hfits : pos + (found >>> 16) < aEnd)
    (hc : buffer[pos + (found >>> 16)]? = some c) (hmatch : IsMatch buffer pos found)
    (hlongest : Longest buffer pos aEnd offset found) :
    (∃ c', matchTurn buffer pos aEnd offset found c = .ok (true, (aEnd - pos) <<< 16 ||| offset, c') ∧
      IsMatch buffer pos ((aEnd - pos) <<< 16 ||| offset)) ∨
    ∃ found' c', matchTurn buffer pos aEnd offset found c = .ok (false, found', c') ∧
      pos + (found' >>> 16) < aEnd ∧ buffer[pos + (found' >>> 16)]? = some c' ∧ IsMatch buffer pos found' ∧
      Longest buffer pos aEnd (offset + 1) found' := by
  have hp : (pos : ℤ) - offset = ((pos - offset : ℕ) : ℤ) := by omega
  have hthere : pos - offset + (found >>> 16) < buffer.length := by omega
  have hhere : pos + (found >>> 16) < buffer.length := by omega
  -- what is known of the nearer positions, together with a bound for this one
  have hextend : ∀ found', found >>> 16 ≤ found' >>> 16 →
      (∀ j, pos + j ≤ aEnd → Agrees buffer (pos - offset) pos j → j ≤ found' >>> 16) →
      Longest buffer pos aEnd (offset + 1) found' := by
    intro found' hfound' hthis r j hr hnear hwindow hhash hj hagrees
    rcases Nat.lt_succ_iff_lt_or_eq.mp (show pos < (r + offset).succ by omega) with hlt | heq
    · exact (hlongest r j hr hlt hwindow hhash hj hagrees).trans hfound'
    · exact hthis j hj (by rw [show pos - offset = r by omega]; exact hagrees)
  unfold matchTurn
  simp only [hp, ← Nat.cast_add]
  rw [elementAt_nat (List.getElem?_eq_getElem hthere), ok_bind]
  by_cases hbyte : buffer[pos - offset + (found >>> 16)] = c
  · rw [if_pos hbyte]
    have hfrom := compareLoop_ok (k := 0) (show pos - offset < pos by omega) hend (by omega)
      (⟨by omega, by simp⟩ : Agrees buffer (pos - offset) pos 0)
    simp only [Nat.add_zero] at hfrom
    rcases hfrom with ⟨hloop, hagrees⟩ | ⟨l, hl, hloop, hagrees, hne⟩
    · refine .inl ⟨c, ?_, isMatch_of hpositive hle hpos hagrees⟩
      rw [hloop, ok_bind]
      rfl
    · right
      rw [hloop, ok_bind, if_neg Bool.false_ne_true]
      have hbound : ∀ j, pos + j ≤ aEnd → Agrees buffer (pos - offset) pos j → j ≤ l :=
        fun j _ hj => hj.le_of_ne hne
      simp only [show pos + l + 1 - pos - 1 = l by omega]
      by_cases hlt : found >>> 16 < l
      · have hlast : ((pos + l + 1 : ℕ) : ℤ) - 1 = ((pos + l : ℕ) : ℤ) := by omega
        have hin : pos + l < buffer.length := by omega
        have hlength := length_of_match (l := l) hle
        rw [if_pos hlt, hlast, elementAt_nat (List.getElem?_eq_getElem hin), ok_bind]
        refine ⟨l <<< 16 ||| offset, buffer[pos + l], rfl, ?_, ?_, isMatch_of hpositive hle hpos hagrees, ?_⟩
        · rw [hlength]
          exact hl
        · rw [hlength]
          exact List.getElem?_eq_getElem hin
        · refine hextend _ ?_ ?_
          · rw [hlength]
            exact Nat.le_of_lt hlt
          · rw [hlength]
            exact hbound
      · rw [if_neg hlt]
        refine ⟨found, c, rfl, hfits, hc, hmatch, hextend found le_rfl fun j hj hagrees' => ?_⟩
        exact (hbound j hj hagrees').trans (Nat.le_of_not_lt hlt)
  · right
    rw [if_neg hbyte]
    refine ⟨found, c, rfl, hfits, hc, hmatch, hextend found le_rfl fun j _ hagrees => hagrees.le_of_ne ?_⟩
    rw [hc, List.getElem?_eq_getElem hthere]
    exact fun heq => hbyte (Option.some.inj heq)

/-- The loop finds the longest match among the positions with the same hash value. -/
theorem matchLoop_ok {pos aEnd : ℕ} {hash : HDeflateHash} (hE : Entered buffer (pos + 1) hash)
    (hend : aEnd ≤ buffer.length) :
    ∀ (turns offset found : ℕ) (c : UInt8), 0 < offset → offset ≤ KDeflateMaxDistance → offset ≤ pos →
      KDeflateMaxDistance < turns + offset →
      HDeflateHash.Hash buffer (pos - offset : ℕ) = HDeflateHash.Hash buffer pos →
      pos + (found >>> 16) < aEnd → buffer[pos + (found >>> 16)]? = some c → IsMatch buffer pos found →
      Longest buffer pos aEnd offset found →
      ∃ found', matchLoop buffer hash pos aEnd turns offset found c = .ok found' ∧ IsMatch buffer pos found' ∧
        pos + (found' >>> 16) ≤ aEnd ∧ Longest buffer pos aEnd (KDeflateMaxDistance + 1) found'
  | 0, offset, _, _, _, hle, _, hturns, _, _, _, _, _ => by omega
  | turns + 1, offset, found, c, hpositive, hle, hpos, hturns, hsame, hfits, hc, hmatch, hlongest => by
    rw [matchLoop]
    rcases matchTurn_ok hend hpositive hle hpos hfits hc hmatch hlongest with
      ⟨c', hturn, hmatch'⟩ | ⟨found', c', hturn, hfits', hc', hmatch', hlongest'⟩
    · refine ⟨_, by rw [hturn, ok_bind]; rfl, hmatch', ?_, fun r j _ _ _ _ hj _ => ?_⟩
      · rw [length_of_match hle]
        omega
      · rw [length_of_match hle]
        omega
    · obtain ⟨next, hnext, hgreater, hbetween, hleads⟩ := Next_ok hE hpositive hle hpos hsame
      rw [hturn, ok_bind]
      simp only [Bool.false_eq_true, if_false]
      rw [hnext, ok_bind]
      have hlonger : ∀ bound, bound ≤ next → Longest buffer pos aEnd bound found' := by
        intro bound hbound r j hr hnear hwindow hhash hj hagrees
        by_cases hfar : r + offset < pos
        · exact absurd hhash (hbetween r hr (by omega) hfar hwindow)
        · exact hlongest' r j hr (by omega) hwindow hhash hj hagrees
      by_cases hwindow : next ≤ KDeflateMaxDistance
      · obtain ⟨hback, hhash⟩ := hleads hwindow
        rw [if_pos (by exact_mod_cast hwindow)]
        exact matchLoop_ok hE hend turns next found' c' (by omega) hwindow hback (by omega) hhash hfits' hc' hmatch'
          (hlonger next le_rfl)
      · rw [if_neg (by exact_mod_cast hwindow)]
        exact ⟨found', rfl, hmatch', Nat.le_of_lt hfits', hlonger _ (by omega)⟩

/-! ### `Match` -/

/-- What `Match` returns: the longest match, where that is one of three bytes or more. -/
structure Found (buffer : List UInt8) (pos found : ℕ) : Prop where
  isMatch : IsMatch buffer pos found
  le : found >>> 16 ≤ matchLength buffer pos
  eq : KDeflateMinLength ≤ matchLength buffer pos → found >>> 16 = matchLength buffer pos

theorem IsMatch.le_matchLength {pos found : ℕ} (h : IsMatch buffer pos found) (hlen : found >>> 16 ≤ KDeflateMaxLength) :
    found >>> 16 ≤ matchLength buffer pos := by
  rcases h with rfl | ⟨back, hpositive, hle, hpos, _, hagrees⟩
  · exact Nat.zero_le _
  · exact le_longest (by omega) (by omega) hlen hagrees

theorem found_of_longest {pos aEnd found : ℕ} (hend : aEnd = min buffer.length (pos + KDeflateMaxLength))
    (hmatch : IsMatch buffer pos found) (hfits : pos + (found >>> 16) ≤ aEnd)
    (hlongest : Longest buffer pos aEnd (KDeflateMaxDistance + 1) found) : Found buffer pos found := by
  have hlen : found >>> 16 ≤ KDeflateMaxLength := by omega
  refine ⟨hmatch, hmatch.le_matchLength hlen, fun hleast => le_antisymm (hmatch.le_matchLength hlen) ?_⟩
  have hpositive : 0 < matchLength buffer pos := Nat.lt_of_lt_of_le (by decide) hleast
  obtain ⟨r, hr, hwindow, hagrees⟩ := longest_occurs hpositive
  have hlimit : matchLength buffer pos ≤ KDeflateMaxLength := longest_le
  have hfit := longest_fits hpositive
  exact hlongest r _ hr (by omega) hwindow (Hash_congr (hagrees.mono hleast)) (by unfold matchLength at *; omega) hagrees

/-- `Match` enters the position and finds its longest match. -/
theorem Match_ok {pos : ℕ} {hash : HDeflateHash} (hE : Entered buffer pos hash) (hpos : pos + 2 < buffer.length)
    (hlen : buffer.length < 2 ^ 31) (hfits : DistanceFits buffer pos) :
    ∃ found hash', Match buffer hash pos = .ok (found, hash') ∧ Found buffer pos found ∧
      Entered buffer (pos + 1) hash' := by
  obtain ⟨offset, hash', hfirst, hlink, hE'⟩ := First_entered hE hpos hlen hfits
  have hnear : ∀ found, Longest buffer pos (min buffer.length (pos + KDeflateMaxLength)) offset found :=
    fun found r j hr hnear hwindow hhash _ _ => absurd hhash (hlink.skips r hr hnear hwindow)
  have hend : pos < min buffer.length (pos + KDeflateMaxLength) := by
    unfold KDeflateMaxLength
    omega
  rw [Match, hfirst, ok_bind]
  dsimp only
  by_cases hwindow : offset ≤ KDeflateMaxDistance
  · obtain ⟨hback, hsame⟩ := hlink.leads hwindow
    have hbyte := List.getElem?_eq_getElem (show pos < buffer.length by omega)
    obtain ⟨found, hloop, hmatch, hfound, hlongest⟩ := matchLoop_ok hE' (Nat.min_le_left _ (pos + KDeflateMaxLength))
      (KDeflateMaxDistance + 1) offset 0 buffer[pos] hlink.positive hwindow hback (by omega) hsame
      hend hbyte (.inl rfl) (hnear 0)
    rw [if_neg (by exact_mod_cast Nat.not_lt.mpr hwindow), elementAt_nat hbyte, ok_bind]
    refine ⟨found, hash', by rw [hloop]; rfl, found_of_longest rfl hmatch hfound hlongest, hE'⟩
  · rw [if_pos (by exact_mod_cast Nat.lt_of_not_le hwindow)]
    refine ⟨0, hash', rfl, found_of_longest rfl (.inl rfl) (Nat.le_of_lt hend) ?_, hE'⟩
    intro r j hr hle hwindow' hhash hj hagrees
    exact hnear 0 r j hr (by omega) hwindow' hhash hj hagrees

end GnuPoc.Deflate
