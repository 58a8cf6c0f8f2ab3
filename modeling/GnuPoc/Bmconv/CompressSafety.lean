import GnuPoc.Bmconv.RoundTrip

/-!
# GnuPoc.Bmconv.CompressSafety — what a compression of words and of triples reads and writes

These two measure their output behind what they have written.  They are safe for exactly those sources of which
every stretch that is written, up to the first with which the output grows too long, fits into the destination and
was found without a look behind the source.
-/

namespace GnuPoc.Bmconv

open Lib TBitmapfileCompression

/-!
### How much a compression writes

The loop looks at the length of its output behind every stretch.  For bytes a run pays for the stretch in front of
it, and the margin at the end for the last one, so that nothing is written behind the destination.
-/

theorem length_runBytes (aValue : Bytes) {n : ℕ} (hn : 0 < n) :
    (runBytes aValue n).length = (1 + aValue.length) * ((n + 127) / 128) := by
  induction n using Nat.strong_induction_on with
  | _ n ih =>
    rw [runBytes]
    split
    · rw [List.length_append, ih (n - 128) (by omega) (by omega), List.length_cons,
        show (n + 127) / 128 = (n - 128 + 127) / 128 + 1 by omega, Nat.mul_succ]
      omega
    · rw [List.length_cons, show (n + 127) / 128 = 1 by omega]
      omega

theorem length_literalBytes (w : ℕ) (mem : ℕ → UInt8) (p : ℕ) {n : ℕ} (hn : 0 < n) :
    (literalBytes w mem p n).length = w * n + (n + 127) / 128 := by
  induction n using Nat.strong_induction_on generalizing p with
  | _ n ih =>
    rw [literalBytes]
    split
    · have hrest := ih (n - 128) (by omega) (p + w * 128) (by omega)
      have hmul : w * n = w * 128 + w * (n - 128) := by
        rw [← Nat.mul_add, Nat.add_sub_cancel' (by omega)]
      rw [List.length_append, hrest, List.length_cons, length_window, hmul]
      omega
    · rw [List.length_cons, length_window, show (n + 127) / 128 = 1 by omega]

theorem compressLoop_rule {bound : ℕ} (c : Codec bound) (cutoff : ℤ) (P : ℕ → Bytes → ℕ → Prop)
    (step : ∀ p h d r, P p d r →
      P (c.scan p h).stop (d ++ (c.write (c.scan p h)).bytes) (max r (max (c.scan p h).reach (c.scan p h).stop)))
    (aSrce : ℕ) (aDest : Bytes) (reach : ℕ) (h : P aSrce aDest reach) :
    P (compressLoop c cutoff aSrce aDest reach).aSrce (compressLoop c cutoff aSrce aDest reach).aDest
      (compressLoop c cutoff aSrce aDest reach).reach := by
  induction hn : bound - aSrce using Nat.strong_induction_on generalizing aSrce aDest reach with
  | _ n ih =>
    subst hn
    rw [compressLoop]
    split
    · rename_i hlt
      have hstop := (c.scan aSrce hlt).lt
      have hnext := step aSrce hlt aDest reach h
      dsimp only
      split_ifs
      · exact hnext
      · exact hnext
      · exact ih _ (by omega) _ _ _ hnext rfl
    · exact h

/-! ### Eight bits -/

/-- The search for the end of unequal bytes stops in front of the margin only where a run begins. -/
theorem byteLiteralEnd_run {mem : ℕ → UInt8} {limitmargin p : ℕ} :
    limitmargin ≤ byteLiteralEnd mem limitmargin p ∨ byteRunAt mem (byteLiteralEnd mem limitmargin p) := by
  induction hn : limitmargin - p using Nat.strong_induction_on generalizing p with
  | _ n ih =>
    subst hn
    rw [byteLiteralEnd]
    split
    · exact ih _ (by omega) rfl
    · rename_i hstop
      by_cases hlt : p < limitmargin
      · exact Or.inr (by_contra fun hrun => hstop ⟨hlt, hrun⟩)
      · exact Or.inl (Nat.le_of_not_lt hlt)

variable (mem : ℕ → UInt8)

theorem length_byteWrite {aSize p : ℕ} (s : Scan p) :
    ((byteCodec mem aSize).write s).bytes.length =
      if s.isRun then 2 * ((s.stop - p + 127) / 128) else s.stop - p + (s.stop - p + 127) / 128 := by
  have hlt := s.lt
  rw [Codec.write]
  split
  · show (writeCompressedValues [mem p] ((s.stop - p) / 1)).bytes.length = _
    rw [Nat.div_one, writeCompressedValues, if_neg (by omega)]
    exact length_runBytes [mem p] (by omega)
  · show (writeCompressedData 1 mem p ((s.stop - p) / 1)).bytes.length = _
    rw [Nat.div_one, writeCompressedData, if_neg (by omega)]
    have := length_literalBytes 1 mem p (n := s.stop - p) (by omega)
    rwa [Nat.one_mul] at this

/-- The output is ahead of the source by a header for each 128 bytes, and by one more behind a stretch of unequal
bytes; the next stretch is a run then, unless the margin is reached. -/
structure InStep (mem : ℕ → UInt8) (aSize p : ℕ) (d : Bytes) : Prop where
  inside : p = 0 ∧ d = [] ∨ p + 2 ≤ aSize
  step : d.length ≤ p + p / 128 ∧ p ≤ limitmargin aSize + 2 ∨
    d.length ≤ p + p / 128 + 1 ∧ p ≤ limitmargin aSize ∧ (limitmargin aSize ≤ p ∨ byteRunAt mem p)

/-- One stretch keeps the output in step with the source. -/
theorem inStep_scan {mem : ℕ → UInt8} {aSize p : ℕ} {d : Bytes} (h : p < limitmargin aSize) (hd : InStep mem aSize p d) :
    InStep mem aSize (byteScan mem (limitmargin aSize) p h).stop
      (d ++ ((byteCodec mem aSize).write (byteScan mem (limitmargin aSize) p h)).bytes) := by
  have hstop := byteScan_stop mem h
  refine ⟨Or.inr hstop, ?_⟩
  rw [List.length_append, length_byteWrite]
  have hstep := hd.step
  by_cases hrun : byteRunAt mem p
  · have hscan : byteScan mem (limitmargin aSize) p h = _ := dif_pos hrun
    have hge := le_byteRunEnd mem (limitmargin aSize) (mem p) (p + 3)
    have hle := byteRunEnd_le mem (limitmargin aSize) (mem p) (p + 3)
    rw [hscan]
    left
    simp only [if_true]
    omega
  · have hscan : byteScan mem (limitmargin aSize) p h = _ := dif_neg hrun
    have hge : p < byteLiteralEnd mem (limitmargin aSize) p := by
      have := (byteScan mem (limitmargin aSize) p h).lt
      rwa [hscan] at this
    have hle := byteLiteralEnd_le mem h.le
    have hend := @byteLiteralEnd_run mem (limitmargin aSize) p
    rw [hscan]
    right
    simp only [Bool.false_eq_true, if_false]
    have hfirst : d.length ≤ p + p / 128 := by
      rcases hstep with h1 | ⟨-, -, h1 | h1⟩
      · exact h1.1
      · omega
      · exact absurd h1 hrun
    exact ⟨by omega, hle, hend⟩

theorem InStep.length_le {mem : ℕ → UInt8} {aSize p : ℕ} {d : Bytes} (h : InStep mem aSize p d) : d.length ≤ aSize := by
  have hstep := h.step
  unfold limitmargin at hstep
  rcases h.inside with ⟨-, rfl⟩ | hin
  · exact Nat.zero_le _
  · omega

/-- Nothing is written behind a destination of the size of the source. -/
theorem CompressByteData_writes (mem : ℕ → UInt8) (aSize : ℕ) : (CompressByteData mem aSize).aDest.length ≤ aSize := by
  have hloop := compressLoop_rule (byteCodec mem aSize) (cutoffpointer aSize) (fun p d _ => InStep mem aSize p d)
    (fun p h d _ => inStep_scan h) 0 [] 0 ⟨Or.inl ⟨rfl, rfl⟩, Or.inl ⟨Nat.zero_le _, Nat.zero_le _⟩⟩
  have hend := (compressLoop_of (byteCodec_correct mem aSize) (cutoffpointer aSize) 0 [] 0
    ⟨one_dvd _, Nat.zero_le _, Encodes.nil⟩).2
  revert hloop hend
  unfold CompressByteData
  generalize compressLoop (byteCodec mem aSize) (cutoffpointer aSize) 0 [] 0 = r
  intro hloop hend
  dsimp only
  split
  · exact hloop.length_le
  · rename_i hok
    split
    · rename_i hremaining
      split
      · exact hloop.length_le
      · rename_i hfits
        have hmargin := hend (not_not.mp hok)
        have hlen := length_literalBytes 1 mem r.aSrce hremaining
        rw [WriteCompressedByteData, writeCompressedData, if_neg (by omega), List.length_append, hlen]
        unfold cutoffpointer at hfits
        unfold limitmargin at hmargin
        omega
    · exact hloop.length_le

/-! ### The stretches of a source -/

/-- Pixels that are written together: how many, where they stop, and how far the scan has read to find that. -/
structure Stretch where
  isRun : Bool
  count : ℕ
  stop : ℕ
  reach : ℕ

/-- The bytes of a stretch of pixels of `w` bytes in packets of 128. -/
def Stretch.cost (w : ℕ) (s : Stretch) : ℕ :=
  if s.count = 0 then 0
  else if s.isRun then (1 + w) * ((s.count + 127) / 128) else w * s.count + (s.count + 127) / 128

/-- The stretches a codec cuts a source into, the last pixels at the end among them. -/
def stretches {bound : ℕ} (c : Codec bound) (limit p : ℕ) : List Stretch :=
  if h : p < bound then
    let s := c.scan p h
    ⟨s.isRun, (s.stop - p) / c.width, s.stop, max s.reach s.stop⟩ :: stretches c limit s.stop
  else if p < limit then
    let count := (limit - p) / c.width
    [⟨false, count, p + c.width * count, p + c.width * count⟩]
  else []
termination_by bound - p
decreasing_by
  have := (c.scan p h).lt
  omega

/-- The stretches that are written behind `n` bytes end in a destination of that size, and are of the kind that
may be; with the first one whose end is behind the cutoff the writing ends. -/
def Packable (w : ℕ) (cutoff : ℤ) (size : ℕ) (Ok : Stretch → Prop) : List Stretch → ℕ → Prop
  | [], _ => True
  | s :: ss, n => Ok s ∧ n + s.cost w ≤ size ∧
      (((n + s.cost w : ℕ) : ℤ) ≤ cutoff → Packable w cutoff size Ok ss (n + s.cost w))

theorem Packable.congr {w : ℕ} {cutoff : ℤ} {size : ℕ} {Ok Ok' : Stretch → Prop} {ss : List Stretch} {n : ℕ}
    (h : ∀ s ∈ ss, Ok s ↔ Ok' s) : Packable w cutoff size Ok ss n ↔ Packable w cutoff size Ok' ss n := by
  induction ss generalizing n with
  | nil => rfl
  | cons s ss ih =>
    rw [List.forall_mem_cons] at h
    simp only [Packable, h.1, ih h.2]

/-- A codec of the loop: it goes on in whole pixels, and writes them as they stand in the source. -/
structure Codec.Steady {bound : ℕ} (c : Codec bound) (mem : ℕ → UInt8) : Prop where
  aligned : ∀ p h, c.width ∣ p → c.width ∣ (c.scan p h).stop
  writeValues : ∀ p, c.writeValues p = writeCompressedValues (window mem p c.width)
  writeData : c.writeData = writeCompressedData c.width mem
  pos : 0 < c.width

section
variable {bound : ℕ} {c : Codec bound} {mem : ℕ → UInt8} (hc : c.Steady mem) {size : ℕ} (limit : ℕ) (cutoff : ℤ)

/-- The output of the loop and of what follows it. -/
def compress (c : Codec bound) (limit : ℕ) (cutoff : ℤ) (p : ℕ) (d : Bytes) (r : ℕ) : Compression :=
  finish c limit cutoff (compressLoop c cutoff p d r)

include hc

theorem length_write {p : ℕ} (s : Scan p) (hdvd : c.width ∣ s.stop - p) : (c.write s).ret = .NoError ∧
    (c.write s).bytes.length = Stretch.cost c.width ⟨s.isRun, (s.stop - p) / c.width, s.stop, max s.reach s.stop⟩ := by
  have hlt := s.lt
  have hcount : 0 < (s.stop - p) / c.width := Nat.div_pos (Nat.le_of_dvd (by omega) hdvd) hc.pos
  have hne : ¬ (s.stop - p) / c.width < 1 := by omega
  rw [Codec.write]
  simp only [Stretch.cost, hcount.ne', if_false]
  split
  · rw [hc.writeValues, writeCompressedValues, if_neg hne, length_runBytes _ hcount, length_window]
    exact ⟨rfl, rfl⟩
  · rw [hc.writeData, writeCompressedData, if_neg hne, length_literalBytes _ _ _ hcount]
    exact ⟨rfl, rfl⟩

theorem compress_step {p : ℕ} (h : p < bound) (hp : c.width ∣ p) (d : Bytes) (r : ℕ) :
    compress c limit cutoff p d r =
      if cutoff < (d ++ (c.write (c.scan p h)).bytes).length then
        ⟨.NoCompression, (c.scan p h).stop, d ++ (c.write (c.scan p h)).bytes,
          max r (max (c.scan p h).reach (c.scan p h).stop)⟩
      else compress c limit cutoff (c.scan p h).stop (d ++ (c.write (c.scan p h)).bytes)
        (max r (max (c.scan p h).reach (c.scan p h).stop)) := by
  have hret := (length_write hc (c.scan p h) (Nat.dvd_sub (hc.aligned p h hp) hp)).1
  rw [compress, compressLoop, dif_pos h]
  dsimp only
  rw [if_neg (not_not_intro hret)]
  split
  · rw [finish, if_pos (by simp)]
  · rfl

theorem compress_tail {p : ℕ} (h : ¬ p < bound) (hp : p < limit) (d : Bytes) (r : ℕ) :
    (compress c limit cutoff p d r).reach = max r (p + c.width * ((limit - p) / c.width)) ∧
    (compress c limit cutoff p d r).aDest.length = d.length +
      Stretch.cost c.width ⟨false, (limit - p) / c.width, p + c.width * ((limit - p) / c.width),
        p + c.width * ((limit - p) / c.width)⟩ ∧
    ((compress c limit cutoff p d r).ret = .NoError → (compress c limit cutoff p d r).aDest.length ≤ cutoff) := by
  rw [compress, compressLoop, dif_neg h, finish]
  dsimp only
  rw [if_neg (by simp), if_pos hp, hc.writeData, writeCompressedData]
  simp only [Stretch.cost]
  by_cases hcount : (limit - p) / c.width = 0
  · have hlt : (limit - p) / c.width < 1 := Nat.lt_one_iff.mpr hcount
    rw [if_pos hlt, if_pos hcount, if_pos (by simp)]
    exact ⟨rfl, by simp, by simp⟩
  · have hge : ¬ (limit - p) / c.width < 1 := Nat.not_lt.mpr (Nat.pos_of_ne_zero hcount)
    rw [if_neg hge, if_neg hcount, if_neg (by simp)]
    have hlen := length_literalBytes c.width mem p (Nat.pos_of_ne_zero hcount)
    split
    · exact ⟨rfl, by simp [hlen], by simp⟩
    · rename_i hle
      exact ⟨rfl, by simp [hlen], fun _ => by simpa using hle⟩

omit hc in
theorem compress_done {p : ℕ} (h : ¬ p < bound) (hp : ¬ p < limit) (d : Bytes) (r : ℕ) :
    (compress c limit cutoff p d r).reach = r ∧ (compress c limit cutoff p d r).aDest = d ∧
    ((compress c limit cutoff p d r).ret = .NoError → (d.length : ℤ) ≤ cutoff) := by
  rw [compress, compressLoop, dif_neg h, finish]
  dsimp only
  rw [if_neg (by simp), if_neg hp]
  split
  · exact ⟨rfl, rfl, by simp⟩
  · rename_i hle
    exact ⟨rfl, rfl, fun _ => by simpa using hle⟩

theorem le_compress {p : ℕ} (hp : c.width ∣ p) (d : Bytes) (r : ℕ) :
    r ≤ (compress c limit cutoff p d r).reach ∧ d.length ≤ (compress c limit cutoff p d r).aDest.length := by
  induction hn : bound - p using Nat.strong_induction_on generalizing p d r with
  | _ n ih =>
    subst hn
    by_cases h : p < bound
    · have hlt := (c.scan p h).lt
      rw [compress_step hc limit cutoff h hp]
      split
      · exact ⟨le_max_left _ _, by simp⟩
      · have hnext := ih _ (by omega) (hc.aligned p h hp) (d ++ (c.write (c.scan p h)).bytes)
          (max r (max (c.scan p h).reach (c.scan p h).stop)) rfl
        rw [List.length_append] at hnext
        exact ⟨(le_max_left _ _).trans hnext.1, by omega⟩
    · by_cases hp' : p < limit
      · have htail := compress_tail hc limit cutoff h hp' d r
        exact ⟨by omega, by omega⟩
      · have hdone := compress_done (c := c) limit cutoff h hp' d r
        rw [hdone.1, hdone.2.1]
        exact ⟨le_refl r, le_refl _⟩

/-- The run stays inside both buffers exactly for stretches that can be written so. -/
theorem compress_inside_iff {p : ℕ} (hp : c.width ∣ p) {d : Bytes} {r : ℕ} (hd : d.length ≤ size) (hr : r ≤ size) :
    ((compress c limit cutoff p d r).reach ≤ size ∧ (compress c limit cutoff p d r).aDest.length ≤ size) ↔
      Packable c.width cutoff size (fun s => s.reach ≤ size) (stretches c limit p) d.length := by
  induction hn : bound - p using Nat.strong_induction_on generalizing p d r with
  | _ n ih =>
    subst hn
    by_cases h : p < bound
    · have hlt := (c.scan p h).lt
      have hlen := (length_write hc (c.scan p h) (Nat.dvd_sub (hc.aligned p h hp) hp)).2
      have hmono := le_compress hc limit cutoff (hc.aligned p h hp)
        (d ++ (c.write (c.scan p h)).bytes) (max r (max (c.scan p h).reach (c.scan p h).stop))
      rw [compress_step hc limit cutoff h hp, stretches, dif_pos h]
      dsimp only [Packable]
      rw [← hlen, ← List.length_append]
      split
      · rename_i hcut
        dsimp only
        have : ¬ ((d ++ (c.write (c.scan p h)).bytes).length : ℤ) ≤ cutoff := by omega
        simp only [this, false_imp_iff, and_true]
        omega
      · rename_i hcut
        have hle : ((d ++ (c.write (c.scan p h)).bytes).length : ℤ) ≤ cutoff := by omega
        simp only [hle, true_imp_iff]
        by_cases hin : max (c.scan p h).reach (c.scan p h).stop ≤ size ∧ (d ++ (c.write (c.scan p h)).bytes).length ≤ size
        · rw [ih _ (by omega) (hc.aligned p h hp) hin.2 (by omega) rfl]
          simp only [hin.1, hin.2, true_and]
        · refine iff_of_false (fun hsafe => hin ?_) fun hpack => hin ⟨hpack.1, hpack.2.1⟩
          omega
    · rw [stretches, dif_neg h]
      by_cases hp' : p < limit
      · have htail := compress_tail hc limit cutoff h hp' d r
        rw [if_pos hp', htail.1, htail.2.1]
        simp only [Packable, implies_true, and_true]
        omega
      · have hdone := compress_done (c := c) limit cutoff h hp' d r
        rw [if_neg hp', hdone.1, hdone.2.1]
        exact iff_of_true ⟨hr, hd⟩ trivial

/-- Where nothing is wrong all stretches have been written, and the output is not behind the cutoff. -/
theorem compress_whole {p : ℕ} (hp : c.width ∣ p) {d : Bytes} {r : ℕ}
    (h : (compress c limit cutoff p d r).ret = .NoError) :
    (compress c limit cutoff p d r).aDest.length = d.length + ((stretches c limit p).map (Stretch.cost c.width)).sum ∧
      ((compress c limit cutoff p d r).aDest.length : ℤ) ≤ cutoff := by
  induction hn : bound - p using Nat.strong_induction_on generalizing p d r with
  | _ n ih =>
    subst hn
    by_cases hb : p < bound
    · have hlt := (c.scan p hb).lt
      have hlen := (length_write hc (c.scan p hb) (Nat.dvd_sub (hc.aligned p hb hp) hp)).2
      rw [compress_step hc limit cutoff hb hp] at h ⊢
      rw [stretches, dif_pos hb]
      simp only [List.map_cons, List.sum_cons]
      rw [← hlen]
      split at h
      · exact absurd h (by simp)
      · rename_i hcut
        rw [if_neg hcut]
        have hnext := ih _ (by omega) (hc.aligned p hb hp) h rfl
        rw [List.length_append] at hnext
        exact ⟨by omega, hnext.2⟩
    · rw [stretches, dif_neg hb]
      by_cases hp' : p < limit
      · have htail := compress_tail hc limit cutoff hb hp' d r
        rw [if_pos hp']
        exact ⟨by simpa using htail.2.1, htail.2.2 h⟩
      · have hdone := compress_done (c := c) limit cutoff hb hp' d r
        rw [if_neg hp', hdone.2.1]
        exact ⟨by simp, hdone.2.2 h⟩

end

/-- What holds of every stretch the scan finds, and of the last pixels, holds of all stretches of a source. -/
theorem forall_stretches {bound : ℕ} {c : Codec bound} {mem : ℕ → UInt8} (hc : c.Steady mem) {limit : ℕ}
    {Q : Stretch → Prop}
    (hscan : ∀ p h, c.width ∣ p →
      Q ⟨(c.scan p h).isRun, ((c.scan p h).stop - p) / c.width, (c.scan p h).stop, max (c.scan p h).reach (c.scan p h).stop⟩)
    (htail : ∀ p, c.width ∣ p → p < limit →
      Q ⟨false, (limit - p) / c.width, p + c.width * ((limit - p) / c.width), p + c.width * ((limit - p) / c.width)⟩)
    {p : ℕ} (hp : c.width ∣ p) : ∀ s ∈ stretches c limit p, Q s := by
  induction hn : bound - p using Nat.strong_induction_on generalizing p with
  | _ n ih =>
    subst hn
    rw [stretches]
    split
    · rename_i h
      have hlt := (c.scan p h).lt
      rw [List.forall_mem_cons]
      exact ⟨hscan p h hp, ih _ (by omega) (hc.aligned p h hp) rfl⟩
    · split
      · rename_i hp'
        rw [List.forall_mem_singleton]
        exact htail p hp hp'
      · simp

/-- A compression that stays inside both buffers, and that reports an encoding longer than the destination. -/
structure Safe (r : Compression) (aSizeInBytes encoded : ℕ) : Prop where
  reads : r.reach ≤ aSizeInBytes
  writes : r.aDest.length ≤ aSizeInBytes
  reports : aSizeInBytes < encoded → r.ret ≠ .NoError

theorem destCompressedLimit_le (aSizeInBytes : ℕ) : destCompressedLimit aSizeInBytes ≤ aSizeInBytes := by
  have h : (Int32.ofNat (aSizeInBytes * 7)).toInt ≤ aSizeInBytes * 7 := by
    have hsize : (Int32.size : ℤ) = 4294967296 := rfl
    rw [Int32.toInt_ofNat', Int.bmod_def, hsize]
    push_cast
    split <;> omega
  have hsign : Int.sign 8 = 1 := rfl
  rw [destCompressedLimit, Int.tdiv_eq_ediv, hsign]
  split_ifs <;> omega

theorem safe_iff {bound : ℕ} {c : Codec bound} {mem : ℕ → UInt8} (hc : c.Steady mem) (limit : ℕ) {aSizeInBytes : ℕ}
    {Ok : Stretch → Prop} (hok : ∀ s ∈ stretches c limit 0, s.reach ≤ aSizeInBytes ↔ Ok s) :
    Safe (compress c limit (destCompressedLimit aSizeInBytes) 0 [] 0) aSizeInBytes
        ((stretches c limit 0).map (Stretch.cost c.width)).sum ↔
      Packable c.width (destCompressedLimit aSizeInBytes) aSizeInBytes Ok (stretches c limit 0) 0 := by
  have hinside := compress_inside_iff hc limit (destCompressedLimit aSizeInBytes) (Nat.dvd_zero c.width) (d := [])
    (Nat.zero_le aSizeInBytes) (Nat.zero_le aSizeInBytes)
  rw [List.length_nil, Packable.congr hok] at hinside
  refine ⟨fun h => hinside.mp ⟨h.reads, h.writes⟩, fun h => ⟨(hinside.mpr h).1, (hinside.mpr h).2, fun hlong hret => ?_⟩⟩
  have hwhole := compress_whole hc limit (destCompressedLimit aSizeInBytes) (Nat.dvd_zero c.width) hret
  have hle := destCompressedLimit_le aSizeInBytes
  rw [List.length_nil] at hwhole
  omega

/-! ### Sixteen bits -/

theorem wordLiteralEnd_in {limit p : ℕ} (hlimit : 2 ∣ limit) (hp : 2 ∣ p) (h : p + 2 ≤ limit) :
    wordLiteralEnd mem limit p + 2 ≤ limit := by
  have hle := ((wordLiteralEnd_search mem limit).aligned Nat.two_pos (p := p) (by omega) hp (by omega)).2
  omega

theorem sixteenCodec_steady {limit : ℕ} (hlimit : 2 ∣ limit) : (sixteenCodec mem limit).Steady mem where
  aligned p h hp := (wordScan_aligned mem hlimit hp h).1
  writeValues p := by
    show writeCompressedValues (leBytes 2 (word mem p)) = _
    rw [leBytes_word]
    rfl
  writeData := rfl
  pos := Nat.two_pos

/-- The stretches of a source of words. -/
def sixteenStretches (mem : ℕ → UInt8) (aSizeInBytes : ℕ) : List Stretch :=
  stretches (sixteenCodec mem (aSizeInBytes / 2 * 2)) (aSizeInBytes / 2 * 2) 0

/-- Only behind a run at the end of the source has the scan read a word too many. -/
theorem sixteenStretches_reach (aSizeInBytes : ℕ) :
    ∀ s ∈ sixteenStretches mem aSizeInBytes,
      s.reach ≤ aSizeInBytes ↔ ¬ (s.isRun = true ∧ s.stop = aSizeInBytes / 2 * 2) := by
  have hlimit : 2 ∣ aSizeInBytes / 2 * 2 := Nat.dvd_mul_left 2 _
  refine forall_stretches (sixteenCodec_steady mem hlimit) (fun p h hp => ?_) (fun p hp h => ?_) (Nat.dvd_zero 2)
  · have hp' : 2 ∣ p := hp
    have haligned := wordScan_aligned mem hlimit hp h
    show max (wordScan mem (aSizeInBytes / 2 * 2) p).reach (wordScan mem (aSizeInBytes / 2 * 2) p).stop ≤ aSizeInBytes ↔
      ¬ ((wordScan mem (aSizeInBytes / 2 * 2) p).isRun = true ∧
        (wordScan mem (aSizeInBytes / 2 * 2) p).stop = aSizeInBytes / 2 * 2)
    revert haligned
    rw [wordScan]
    split
    · intro haligned
      dsimp only at haligned ⊢
      simp only [true_and]
      omega
    · have hin := wordLiteralEnd_in mem hlimit (p := p + 2) (by omega) (by omega)
      intro haligned
      dsimp only at haligned ⊢
      simp only [Bool.false_eq_true, false_and, not_false_eq_true, iff_true]
      split <;> omega
  · show p + 2 * ((aSizeInBytes / 2 * 2 - p) / 2) ≤ aSizeInBytes ↔ ¬ (false = true ∧ _)
    simp only [Bool.false_eq_true, false_and, not_false_eq_true, iff_true]
    omega

/-! ### Twenty-four bits -/

theorem pixelLiteralEnd_dvd {mem : ℕ → UInt8} {limit p reach : ℕ} {components : Bytes} (hp : 3 ∣ p) :
    3 ∣ (pixelLiteralEnd mem limit components p reach).1 :=
  pixelLiteralEnd_ends (Q := fun q _ => 3 ∣ q) (fun q _ hq _ => ⟨by omega, hq⟩) hp

theorem twentyFourCodec_steady (aSizeInBytes : ℕ) : (twentyFourCodec mem aSizeInBytes).Steady mem where
  aligned p h hp := by
    have hp' : 3 ∣ p := hp
    show 3 ∣ (pixelScan mem aSizeInBytes p).stop
    rw [pixelScan]
    split
    · exact (pixelRunEnd_search mem aSizeInBytes _).dvd (Nat.succ_pos 2) (by omega)
    · exact pixelLiteralEnd_dvd (by omega)
  writeValues _ := rfl
  writeData := rfl
  pos := Nat.succ_pos 2

def twentyFourStretches (mem : ℕ → UInt8) (aSizeInBytes : ℕ) : List Stretch :=
  stretches (twentyFourCodec mem aSizeInBytes) aSizeInBytes 0

theorem compareReach_le (p : ℕ) (components : Bytes) : compareReach mem p components ≤ p + 3 := by
  unfold compareReach
  split_ifs <;> omega

theorem pixelRunEnd_reach {mem : ℕ → UInt8} {limit p : ℕ} {components : Bytes} (hlimit : 3 ∣ limit) (hp : 3 ∣ p)
    (h : p < limit) : (pixelRunEnd mem limit components p).2 ≤ limit := by
  induction hn : limit - p using Nat.strong_induction_on generalizing p with
  | _ n ih =>
    subst hn
    rw [pixelRunEnd]
    split
    · rename_i hgo
      split
      · exact ih _ (by omega) (by omega) hgo rfl
      · have := compareReach_le mem (p + 3) components
        dsimp only
        omega
    · dsimp only
      omega

theorem pixelLiteralEnd_reach {mem : ℕ → UInt8} {limit p reach : ℕ} {components : Bytes} (hlimit : 3 ∣ limit)
    (hp : 3 ∣ p) (hr : reach ≤ limit) : (pixelLiteralEnd mem limit components p reach).2 ≤ limit :=
  (pixelLiteralEnd_ends (Q := fun q r => 3 ∣ q ∧ r ≤ limit) (fun q r hq hlt => ⟨by omega, by omega⟩) ⟨hp, hr⟩).2

theorem twentyFourStretches_reach {aSizeInBytes : ℕ} (h3 : 3 ∣ aSizeInBytes) :
    ∀ s ∈ twentyFourStretches mem aSizeInBytes, s.reach ≤ aSizeInBytes := by
  refine forall_stretches (twentyFourCodec_steady mem aSizeInBytes) (fun p h hp => ?_) (fun p hp h => ?_) (Nat.dvd_zero 3)
  · have hp' : 3 ∣ p := hp
    have haligned := pixelScan_aligned mem h3 hp h
    refine max_le ?_ haligned.2
    show (pixelScan mem aSizeInBytes p).reach ≤ aSizeInBytes
    rw [pixelScan]
    split
    · exact pixelRunEnd_reach h3 (by omega) (by omega)
    · exact pixelLiteralEnd_reach h3 (by omega) (by omega)
  · show p + 3 * ((aSizeInBytes - p) / 3) ≤ aSizeInBytes
    omega

/-- When the two compressions are safe. -/
theorem compress_safe_iff (mem : ℕ → UInt8) (aSizeInBytes : ℕ) :
    (Safe (CompressSixteenBitData mem aSizeInBytes) aSizeInBytes
        ((sixteenStretches mem aSizeInBytes).map (Stretch.cost 2)).sum ↔
      Packable 2 (destCompressedLimit aSizeInBytes) aSizeInBytes
        (fun s => ¬ (s.isRun = true ∧ s.stop = aSizeInBytes / 2 * 2)) (sixteenStretches mem aSizeInBytes) 0) ∧
    (Safe (CompressTwentyFourBitData mem aSizeInBytes) aSizeInBytes
        ((twentyFourStretches mem aSizeInBytes).map (Stretch.cost 3)).sum ↔
      Packable 3 (destCompressedLimit aSizeInBytes) aSizeInBytes
        (fun s => 3 ∣ aSizeInBytes ∨ s.reach ≤ aSizeInBytes) (twentyFourStretches mem aSizeInBytes) 0) := by
  constructor
  · exact safe_iff (sixteenCodec_steady mem (Nat.dvd_mul_left 2 (aSizeInBytes / 2))) _
      (sixteenStretches_reach mem aSizeInBytes)
  · refine safe_iff (twentyFourCodec_steady mem aSizeInBytes) _ fun s hs => ⟨Or.inr, ?_⟩
    rintro (h3 | hreach)
    · exact twentyFourStretches_reach mem h3 s hs
    · exact hreach

/-- Two unequal words: two packets of one word, six bytes in a destination of four. -/
theorem CompressSixteenBitData_unsafe :
    ¬ Safe (CompressSixteenBitData (memoryOf [1, 0, 2, 0] fun _ => 0) 4) 4
      ((sixteenStretches (memoryOf [1, 0, 2, 0] fun _ => 0) 4).map (Stretch.cost 2)).sum := by
  intro h
  have hwrites := h.writes
  have hsix : (CompressSixteenBitData (memoryOf [1, 0, 2, 0] fun _ => 0) 4).aDest.length = 6 := by decide +kernel
  omega

end GnuPoc.Bmconv
