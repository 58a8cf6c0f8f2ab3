import GnuPoc.Deflate.Deflater
import GnuPoc.Lib.LongestMatch
import Mathlib.Tactic.NormNum

/-!
# GnuPoc.Deflate.HashChain — what the hash table knows about the bytes before a position

Entering a position stores how far back the last position with the same hash value is.  From a position these offsets lead
to all the positions of the window that share its hash value, from the nearest to the furthest.
-/

namespace GnuPoc.Deflate

open GnuPoc.Lib

section
variable {buffer : List UInt8}

/-! ### The hash value -/

theorem Hash_ok {pos : ℕ} (h : pos + 2 < buffer.length) : ∃ v < 256, HDeflateHash.Hash buffer pos = .ok v := by
  have h0 := elementAt_nat (List.getElem?_eq_getElem (show pos < buffer.length by omega))
  have h1 := elementAt_nat (List.getElem?_eq_getElem (show pos + 1 < buffer.length by omega))
  have h2 := elementAt_nat (List.getElem?_eq_getElem h)
  push_cast at h1 h2
  refine ⟨_, ?_, by rw [HDeflateHash.Hash, h0, ok_bind, h1, ok_bind, h2, ok_bind]; rfl⟩
  rw [UInt32.toNat_shiftRight, Nat.shiftRight_eq_div_pow]
  have hshift : KDeflateHashShift.toNat % 32 = 24 := rfl
  rw [hshift]
  have hlt := UInt32.toNat_lt ((buffer[pos].toUInt32 ||| buffer[pos + 1].toUInt32 <<< 8 |||
    buffer[pos + 2].toUInt32 <<< 16) * KDeflateHashMultiplier)
  omega

theorem Hash_outside {pos : ℕ} (h : buffer.length ≤ pos + 2) : HDeflateHash.Hash buffer pos = .error .undefined := by
  have hlast : elementAt buffer ((pos : ℤ) + 2) = .error .undefined := elementAt_outside (by omega)
  have hall : ∀ i : ℤ, elementAt buffer i = .error .undefined ∨ ∃ a, elementAt buffer i = .ok a := by
    intro i
    unfold elementAt
    split
    · split
      · exact .inr ⟨_, rfl⟩
      · exact .inl rfl
    · exact .inl rfl
  rw [HDeflateHash.Hash]
  rcases hall pos with h0 | ⟨_, h0⟩
  · rw [h0]
    rfl
  rcases hall (pos + 1) with h1 | ⟨_, h1⟩
  · rw [h0, ok_bind, h1]
    rfl
  · rw [h0, ok_bind, h1, ok_bind, hlast]
    rfl

theorem Hash_congr {r p : ℕ} (h : Agrees buffer r p 3) : HDeflateHash.Hash buffer r = HDeflateHash.Hash buffer p := by
  have h0 := elementAt_congr (h.same 0 (by omega))
  have h1 := elementAt_congr (h.same 1 (by omega))
  have h2 := elementAt_congr (h.same 2 (by omega))
  push_cast at h0 h1 h2
  rw [HDeflateHash.Hash, HDeflateHash.Hash]
  simp only [Int.add_zero] at h0
  rw [h0, h1, h2]

end

/-! ### The table -/

section
variable (buffer : List UInt8)

/-- `v` is the last position before `pos` with the hash value `h`. -/
def IsLast (pos h : ℕ) (v : ℤ) : Prop :=
  (v = -4097 ∧ ∀ q < pos, HDeflateHash.Hash buffer q ≠ .ok h) ∨
    ∃ q < pos, v = q ∧ HDeflateHash.Hash buffer q = .ok h ∧
      ∀ r, q < r → r < pos → HDeflateHash.Hash buffer r ≠ .ok h

/-- So far back is the last position with the hash value of `q`, unless the offset leads out of the window. -/
structure Link (q offset : ℕ) : Prop where
  positive : 0 < offset
  bound : offset ≤ 8192
  skips : ∀ r < q, q < r + offset → q ≤ r + KDeflateMaxDistance → HDeflateHash.Hash buffer r ≠ HDeflateHash.Hash buffer q
  leads : offset ≤ KDeflateMaxDistance → offset ≤ q ∧
    HDeflateHash.Hash buffer (q - offset : ℕ) = HDeflateHash.Hash buffer q

/-- The hash value of `pos` is that of an earlier position. -/
def Repeats (pos : ℕ) : Prop := ∃ q < pos, HDeflateHash.Hash buffer q = HDeflateHash.Hash buffer pos

/-- From an initial entry a position from here on is too far away for a `TInt`. -/
def DistanceFits (pos : ℕ) : Prop := 2 ^ 31 ≤ pos + 4097 → Repeats buffer pos

/-- All positions before `pos` have been entered. -/
structure Entered (pos : ℕ) (hash : HDeflateHash) : Prop where
  hashes : hash.iHash.length = 256
  links : hash.iOffset.length = min buffer.length KDeflateMaxDistance
  last : ∀ h < 256, ∃ v, hash.iHash[h]? = some v ∧ IsLast buffer pos h v
  link : ∀ q < pos, pos ≤ q + KDeflateMaxDistance →
    ∃ offset, hash.iOffset[q % KDeflateMaxDistance]? = some (some offset) ∧ Link buffer q offset
  fits : ∀ q < pos, DistanceFits buffer q

variable {buffer}

theorem NewLC_entered : Entered buffer 0 (.NewLC buffer.length) where
  hashes := List.length_replicate
  links := List.length_replicate
  last := by
    intro h hh
    exact ⟨-(KDeflateMaxDistance : ℤ) - 1, List.getElem?_replicate_of_lt hh, .inl ⟨rfl, by simp⟩⟩
  link := by simp
  fits := by simp

theorem IsLast.enter {pos h : ℕ} (hpos : HDeflateHash.Hash buffer pos = .ok h) : IsLast buffer (pos + 1) h pos :=
  .inr ⟨pos, Nat.lt_succ_self pos, rfl, hpos, fun r hr hr' => by omega⟩

theorem IsLast.skip {pos h : ℕ} {v : ℤ} (hlast : IsLast buffer pos h v)
    (hpos : HDeflateHash.Hash buffer pos ≠ .ok h) : IsLast buffer (pos + 1) h v := by
  rcases hlast with ⟨rfl, hnone⟩ | ⟨q, hq, rfl, hhash, hlater⟩
  · refine .inl ⟨rfl, fun q hq => ?_⟩
    rcases Nat.lt_succ_iff_lt_or_eq.mp hq with hlt | rfl
    · exact hnone q hlt
    · exact hpos
  · refine .inr ⟨q, by omega, rfl, hhash, fun r hr hr' => ?_⟩
    rcases Nat.lt_succ_iff_lt_or_eq.mp hr' with hlt | rfl
    · exact hlater r hr hlt
    · exact hpos

/-- The offset that `First` computes is a link. -/
theorem IsLast.link {pos h : ℕ} {v : ℤ} (hlast : IsLast buffer pos h v) (hpos : HDeflateHash.Hash buffer pos = .ok h) :
    ∃ offset : ℕ, min ((pos : ℤ) - v) (KDeflateMaxDistance <<< 1 : ℕ) = offset ∧ Link buffer pos offset := by
  have hshift : KDeflateMaxDistance <<< 1 = 8192 := rfl
  have hwindow : KDeflateMaxDistance = 4096 := rfl
  rw [hshift]
  rcases hlast with ⟨rfl, hnone⟩ | ⟨q, hq, rfl, hhash, hlater⟩
  · refine ⟨min (pos + 4097) 8192, by omega, by omega, by omega, ?_, by omega⟩
    intro r hr _ _
    rw [hpos]
    exact hnone r hr
  · refine ⟨min (pos - q) 8192, by omega, by omega, by omega, ?_, ?_⟩
    · intro r hr hnear _
      rw [hpos]
      exact hlater r (by omega) hr
    · intro hle
      have hmin : min (pos - q) 8192 = pos - q := by omega
      rw [hmin, hpos, show pos - (pos - q) = q by omega]
      exact ⟨by omega, hhash⟩

/-- `First` enters the next position, as long as its distance is a `TInt`. -/
theorem First_entered {pos : ℕ} {hash : HDeflateHash} (hE : Entered buffer pos hash) (hpos : pos + 2 < buffer.length)
    (hlen : buffer.length < 2 ^ 31) (hfits : DistanceFits buffer pos) :
    ∃ offset : ℕ, ∃ hash', hash.First buffer pos = .ok ((offset : ℤ), hash') ∧ Link buffer pos offset ∧
      Entered buffer (pos + 1) hash' := by
  obtain ⟨h, hh, hhash⟩ := Hash_ok hpos
  obtain ⟨v, hv, hlast⟩ := hE.last h hh
  obtain ⟨offset, hoffset, hlink⟩ := hlast.link hhash
  have hdistance : differenceTInt pos v = .ok (pos - v) := by
    rw [differenceTInt, if_pos]
    rcases hlast with ⟨rfl, hnone⟩ | ⟨q, hq, rfl, _, _⟩
    · have hnear : ¬ 2 ^ 31 ≤ pos + 4097 := fun hfar => by
        obtain ⟨q, hq, hsame⟩ := hfits hfar
        exact hnone q hq (hsame.trans hhash)
      omega
    · omega
  have hslot : pos % KDeflateMaxDistance < hash.iOffset.length := by
    have hmod := Nat.mod_le pos KDeflateMaxDistance
    have hmod' := Nat.mod_lt pos (show 0 < KDeflateMaxDistance by decide)
    rw [hE.links]
    omega
  have hnarrow : ((offset : ℤ) % 0x10000).toNat = offset := by
    have := hlink.bound
    omega
  refine ⟨offset, ⟨hash.iHash.modify h fun _ => (pos : ℤ),
    hash.iOffset.modify (pos % KDeflateMaxDistance) fun _ => some offset⟩, ?_, hlink, ?_⟩
  · rw [HDeflateHash.First, hhash, ok_bind, elementAt_nat hv, ok_bind, hdistance, ok_bind, hoffset,
      modifyAt_nat (by rw [hE.hashes]; exact hh), ok_bind, modifyAt_nat hslot, ok_bind, hnarrow]
    rfl
  constructor
  · rw [List.length_modify]
    exact hE.hashes
  · rw [List.length_modify]
    exact hE.links
  · intro h' hh'
    obtain ⟨v', hv', hlast'⟩ := hE.last h' hh'
    by_cases heq : h = h'
    · subst heq
      exact ⟨pos, by simp [hv], .enter hhash⟩
    · refine ⟨v', by simp [heq, hv'], hlast'.skip fun hsame => heq ?_⟩
      rw [hhash] at hsame
      exact Except.ok.inj hsame
  · intro q hq hnear
    rcases Nat.lt_succ_iff_lt_or_eq.mp hq with hlt | rfl
    · obtain ⟨offset', hget, hlink'⟩ := hE.link q hlt (by omega)
      refine ⟨offset', ?_, hlink'⟩
      have hother : pos % KDeflateMaxDistance ≠ q % KDeflateMaxDistance := by
        unfold KDeflateMaxDistance at hnear ⊢
        omega
      simp [hother, hget]
    · exact ⟨offset, by simp [hslot], hlink⟩
  · intro q hq
    rcases Nat.lt_succ_iff_lt_or_eq.mp hq with hlt | rfl
    · exact hE.fits q hlt
    · exact hfits

/-- `First` does nothing that is undefined only where it can enter the position. -/
theorem First_fits {pos : ℕ} {hash : HDeflateHash} (hE : Entered buffer pos hash) {r : ℤ × HDeflateHash}
    (h : hash.First buffer pos = .ok r) : pos + 2 < buffer.length ∧ DistanceFits buffer pos := by
  obtain ⟨v, hhash, h⟩ := bind_eq_ok.mp h
  have hpos : pos + 2 < buffer.length := by
    by_contra hout
    rw [Hash_outside (Nat.le_of_not_lt hout)] at hhash
    exact absurd hhash (by rintro ⟨⟩)
  refine ⟨hpos, fun hfar => ?_⟩
  obtain ⟨w, hw, hhash'⟩ := Hash_ok hpos
  obtain rfl : w = v := Except.ok.inj (hhash'.symm.trans hhash)
  obtain ⟨last, hget, hlast⟩ := hE.last w hw
  rcases hlast with ⟨rfl, _⟩ | ⟨q, hq, _, hsame, _⟩
  · rw [elementAt_nat hget, ok_bind, differenceTInt, if_neg (by omega), error_bind] at h
    exact absurd h (by rintro ⟨⟩)
  · exact ⟨q, hq, hsame.trans hhash.symm⟩

/-- From a position in the window `Next` leads to the next one with the same hash value, or out of the window. -/
theorem Next_ok {pos offset : ℕ} {hash : HDeflateHash} (hE : Entered buffer (pos + 1) hash) (hpositive : 0 < offset)
    (hle : offset ≤ KDeflateMaxDistance) (hpos : offset ≤ pos)
    (hsame : HDeflateHash.Hash buffer (pos - offset : ℕ) = HDeflateHash.Hash buffer pos) :
    ∃ next : ℕ, hash.Next pos offset = .ok (next : ℤ) ∧ offset < next ∧
      (∀ r < pos, pos < r + next → r + offset < pos → pos ≤ r + KDeflateMaxDistance →
        HDeflateHash.Hash buffer r ≠ HDeflateHash.Hash buffer pos) ∧
      (next ≤ KDeflateMaxDistance → next ≤ pos ∧
        HDeflateHash.Hash buffer (pos - next : ℕ) = HDeflateHash.Hash buffer pos) := by
  have hindex : ((pos : ℤ) - offset) % KDeflateMaxDistance = ((pos - offset) % KDeflateMaxDistance : ℕ) := by
    push_cast [hpos]
    rfl
  rcases Nat.lt_or_eq_of_le hle with hlt | heq
  · obtain ⟨step, hget, hlink⟩ := hE.link (pos - offset) (by omega) (by omega)
    refine ⟨offset + step, ?_, by have := hlink.positive; omega, ?_, ?_⟩
    · rw [HDeflateHash.Next, hindex, elementAt_nat hget]
      rfl
    · intro r _ hr hfar hwindow hhash
      exact hlink.skips r (by omega) (by omega) (by omega) (hhash.trans hsame.symm)
    · intro hnext
      obtain ⟨hback, hhash⟩ := hlink.leads (by omega)
      rw [show pos - (offset + step) = pos - offset - step by omega]
      exact ⟨by omega, hhash.trans hsame⟩
  · -- the entry has been overwritten with that of `pos`, which is an offset as well
    obtain ⟨step, hget, hlink⟩ := hE.link pos (Nat.lt_succ_self pos) (by unfold KDeflateMaxDistance; omega)
    have hslot : (pos - offset) % KDeflateMaxDistance = pos % KDeflateMaxDistance := by
      unfold KDeflateMaxDistance at heq ⊢
      omega
    have hstep := hlink.positive
    refine ⟨offset + step, ?_, by omega, by omega, by omega⟩
    rw [HDeflateHash.Next, hindex, hslot, elementAt_nat hget]
    rfl

end

end GnuPoc.Deflate
