import GnuPoc.Bmconv.Compress

/-!
# GnuPoc.Bmconv.RoundTrip — what is compressed is expanded to itself

Every stretch is written as packets that stand for its pixels, so that what the loop has written stands for what it
has scanned.  The packets of a whole buffer fill a destination of its size, and the expansion brings them back.
-/

namespace GnuPoc.Bmconv

open Lib TBitmapfileCompression

/-! ### Stretches in packets -/

theorem encodes_runBytes {w n : ℕ} {aValue : Bytes} (hlen : aValue.length = w) (hn : 0 < n) :
    Encodes w (runBytes aValue n) (List.replicate n aValue).flatten := by
  induction n using Nat.strong_induction_on with
  | _ n ih =>
    rw [runBytes]
    split
    · rename_i h
      have hfull := Encodes.packet (w := w) (p := .run aValue 128) ⟨hlen, by omega, le_refl 128⟩
      have hrest := hfull.append (ih (n - 128) (by omega) (by omega))
      rwa [Packet.output, ← List.flatten_append, List.replicate_append_replicate,
        show 128 + (n - 128) = n by omega] at hrest
    · exact Encodes.packet (p := .run aValue n) ⟨hlen, hn, by omega⟩

theorem encodes_literalBytes {w : ℕ} (mem : ℕ → UInt8) {n p : ℕ} (hn : 0 < n) :
    Encodes w (literalBytes w mem p n) (window mem p (w * n)) := by
  induction n using Nat.strong_induction_on generalizing p with
  | _ n ih =>
    rw [literalBytes]
    split
    · rename_i h
      have hfull := Encodes.packet (w := w) (p := .literal 128 (window mem p (w * 128)))
        ⟨length_window _ _ _, by omega, le_refl 128⟩
      have hrest := hfull.append (ih (n - 128) (by omega) (p := p + w * 128) (by omega))
      rwa [Packet.output, ← window_add, ← Nat.mul_add, show 128 + (n - 128) = n by omega] at hrest
    · exact Encodes.packet (p := .literal n (window mem p (w * n))) ⟨length_window _ _ _, hn, by omega⟩

theorem window_of_equal {mem : ℕ → UInt8} {w p n : ℕ} {pixel : Bytes} (h : ∀ i < n, window mem (p + w * i) w = pixel) :
    window mem p (w * n) = (List.replicate n pixel).flatten := by
  induction n generalizing p with
  | zero => simp
  | succ n ih =>
    have h0 := h 0 (Nat.succ_pos n)
    rw [Nat.mul_zero, Nat.add_zero] at h0
    rw [Nat.mul_succ, Nat.add_comm, window_add, h0, List.replicate_succ, List.flatten_cons]
    congr 1
    refine ih fun i hi => ?_
    have := h (i + 1) (by omega)
    rwa [Nat.mul_succ, Nat.add_comm (w * i), ← Nat.add_assoc] at this

/-! ### The loop -/

/-- A codec that writes every stretch of the source as packets of its pixels, up to the limit and not over it. -/
structure Codec.Correct {bound : ℕ} (c : Codec bound) (mem : ℕ → UInt8) (limit : ℕ) : Prop where
  aligned : ∀ p h, c.width ∣ p → c.width ∣ (c.scan p h).stop
  stop_le : ∀ p h, c.width ∣ p → (c.scan p h).stop ≤ limit
  write : ∀ p h, c.width ∣ p → (c.write (c.scan p h)).ret = .NoError ∧
    Encodes c.width (c.write (c.scan p h)).bytes (window mem p ((c.scan p h).stop - p))
  writeData : c.writeData = writeCompressedData c.width mem

/-- The output stands for the part of the source up to the pointer. -/
structure Written.Of {bound : ℕ} (c : Codec bound) (mem : ℕ → UInt8) (limit aSrce : ℕ) (aDest : Bytes) : Prop where
  aligned : c.width ∣ aSrce
  le : aSrce ≤ limit
  encodes : Encodes c.width aDest (window mem 0 aSrce)

theorem compressLoop_of {bound : ℕ} {c : Codec bound} {mem : ℕ → UInt8} {limit : ℕ} (hc : c.Correct mem limit)
    (cutoff : ℤ) (aSrce : ℕ) (aDest : Bytes) (reach : ℕ) (h : Written.Of c mem limit aSrce aDest) :
    Written.Of c mem limit (compressLoop c cutoff aSrce aDest reach).aSrce (compressLoop c cutoff aSrce aDest reach).aDest ∧
      ((compressLoop c cutoff aSrce aDest reach).ret = .NoError → bound ≤ (compressLoop c cutoff aSrce aDest reach).aSrce) := by
  induction hn : bound - aSrce using Nat.strong_induction_on generalizing aSrce aDest reach with
  | _ n ih =>
    subst hn
    by_cases hlt : aSrce < bound
    swap
    · rw [compressLoop, dif_neg hlt]
      exact ⟨h, fun _ => Nat.le_of_not_lt hlt⟩
    have hstop := (c.scan aSrce hlt).lt
    obtain ⟨hret, henc⟩ := hc.write aSrce hlt h.aligned
    have hnext : Written.Of c mem limit (c.scan aSrce hlt).stop (aDest ++ (c.write (c.scan aSrce hlt)).bytes) := by
      refine ⟨hc.aligned aSrce hlt h.aligned, hc.stop_le aSrce hlt h.aligned, ?_⟩
      have happend := h.encodes.append henc
      rwa [window_split mem hstop.le] at happend
    rw [compressLoop, dif_pos hlt]
    dsimp only
    rw [if_neg (not_not_intro hret)]
    split
    · exact ⟨hnext, by simp⟩
    · exact ih _ (by omega) _ _ _ hnext rfl

/-- What is written with the rest of the pixels stands for the whole source. -/
theorem finish_encodes {bound : ℕ} {c : Codec bound} {mem : ℕ → UInt8} {limit : ℕ} (hc : c.Correct mem limit)
    (hlimit : c.width ∣ limit) (hwidth : 0 < c.width) {cutoff : ℤ}
    (h : (finish c limit cutoff (compressLoop c cutoff 0 [] 0)).ret = .NoError) :
    Encodes c.width (finish c limit cutoff (compressLoop c cutoff 0 [] 0)).aDest (window mem 0 limit) := by
  obtain ⟨hof, -⟩ := compressLoop_of hc cutoff 0 [] 0 ⟨Nat.dvd_zero _, Nat.zero_le _, Encodes.nil⟩
  revert hof h
  generalize compressLoop c cutoff 0 [] 0 = r
  intro h hof
  have hdone : ¬ r.aSrce < limit → Encodes c.width r.aDest (window mem 0 limit) := fun hlt => by
    have hof' := hof.encodes
    rwa [Nat.le_antisymm hof.le (Nat.le_of_not_lt hlt)] at hof'
  unfold finish at h ⊢
  split at h
  · exact absurd h ‹_›
  · split at h
    · rename_i hlt
      have hdvd := Nat.dvd_sub hlimit hof.aligned
      have hcount : 0 < (limit - r.aSrce) / c.width := Nat.div_pos (Nat.le_of_dvd (by omega) hdvd) hwidth
      have hret : (c.writeData r.aSrce ((limit - r.aSrce) / c.width)).ret = .NoError := by
        rw [hc.writeData, writeCompressedData, if_neg (by omega)]
      have hbytes : (c.writeData r.aSrce ((limit - r.aSrce) / c.width)).bytes =
          literalBytes c.width mem r.aSrce ((limit - r.aSrce) / c.width) := by
        rw [hc.writeData, writeCompressedData, if_neg (by omega)]
      have hall : Encodes c.width (r.aDest ++ (c.writeData r.aSrce ((limit - r.aSrce) / c.width)).bytes)
          (window mem 0 limit) := by
        have happend := hof.encodes.append (encodes_literalBytes (w := c.width) mem (p := r.aSrce) hcount)
        rw [Nat.mul_div_cancel' hdvd] at happend
        rwa [hbytes, ← window_split mem hof.le]
      rename_i hok
      rw [if_neg hok, if_pos hlt]
      dsimp only
      rw [if_neg (not_not_intro hret)]
      split <;> exact hall
    · rename_i hok hlt
      rw [if_neg hok, if_neg hlt]
      split <;> exact hdone hlt

theorem write_of_scan {bound : ℕ} {c : Codec bound} {mem : ℕ → UInt8} {p : ℕ} (s : Scan p) (hwidth : 0 < c.width)
    (hdata : c.writeData = writeCompressedData c.width mem)
    (hvalues : c.writeValues p = writeCompressedValues (window mem p c.width)) (hdvd : c.width ∣ s.stop - p)
    (hrun : s.isRun = true → ∀ i < (s.stop - p) / c.width, window mem (p + c.width * i) c.width = window mem p c.width) :
    (c.write s).ret = .NoError ∧ Encodes c.width (c.write s).bytes (window mem p (s.stop - p)) := by
  have hlt := s.lt
  have hcount : 0 < (s.stop - p) / c.width := Nat.div_pos (Nat.le_of_dvd (by omega) hdvd) hwidth
  rw [Codec.write]
  split
  · rename_i h
    have hequal := window_of_equal (hrun h)
    rw [Nat.mul_div_cancel' hdvd] at hequal
    rw [hvalues, writeCompressedValues, if_neg (by omega), hequal]
    exact ⟨rfl, encodes_runBytes (length_window _ _ _) hcount⟩
  · have hliteral := encodes_literalBytes (w := c.width) mem (p := p) hcount
    rw [Nat.mul_div_cancel' hdvd] at hliteral
    rw [hdata, writeCompressedData, if_neg (by omega)]
    exact ⟨rfl, hliteral⟩

/-! ### Eight bits -/

variable (mem : ℕ → UInt8)

theorem byteRunEnd_le (limitmargin : ℕ) (value : UInt8) (p : ℕ) :
    byteRunEnd mem limitmargin value p ≤ max p limitmargin :=
  (byteRunEnd_search mem limitmargin value).ends Nat.one_pos (Q := (· ≤ max p limitmargin))
    (fun _ _ hlt => (Nat.succ_le_of_lt hlt).trans (le_max_right ..)) (le_max_left ..)

theorem byteLiteralEnd_le {limitmargin p : ℕ} (h : p ≤ limitmargin) :
    byteLiteralEnd mem limitmargin p ≤ limitmargin :=
  ((byteLiteralEnd_search mem limitmargin).aligned Nat.one_pos (one_dvd _) (one_dvd _) h).2

theorem byteScan_stop {aSize p : ℕ} (h : p < limitmargin aSize) :
    (byteScan mem (limitmargin aSize) p h).stop + 2 ≤ aSize := by
  have hmargin : limitmargin aSize + 4 ≤ aSize := by
    unfold limitmargin at h ⊢
    omega
  rw [byteScan]
  split
  · have hle := byteRunEnd_le mem (limitmargin aSize) (mem p) (p + 3)
    dsimp only
    omega
  · have hle := byteLiteralEnd_le mem h.le
    dsimp only
    omega

theorem byteCodec_correct (aSize : ℕ) : (byteCodec mem aSize).Correct mem aSize where
  aligned _ _ _ := one_dvd _
  stop_le p h _ := by
    have hstop := byteScan_stop mem h
    show (byteScan mem (limitmargin aSize) p h).stop ≤ aSize
    omega
  write p h _ := by
    refine write_of_scan (byteScan mem (limitmargin aSize) p h) Nat.one_pos rfl rfl (one_dvd _) ?_
    show (byteScan mem (limitmargin aSize) p h).isRun = true →
      ∀ i < ((byteScan mem (limitmargin aSize) p h).stop - p) / 1, window mem (p + 1 * i) 1 = window mem p 1
    rw [byteScan]
    split
    · rename_i hrun
      intro _ i hi
      dsimp only at hi
      rw [Nat.div_one] at hi
      rw [Nat.one_mul, window_one, window_one]
      match i with
      | 0 => rfl
      | 1 => rw [hrun.1]
      | 2 => rw [hrun.2]
      | i + 3 =>
        have hequal := (byteRunEnd_search mem (limitmargin aSize) (mem p)).passed (p := p + 3) (i := i) (by omega)
        rwa [show p + 3 + 0 + 1 * i = p + (i + 3) by omega, ← List.singleton_inj] at hequal
    · intro h
      exact absurd h (by simp)
  writeData := rfl

theorem encodes_byte {mem : ℕ → UInt8} {aSize : ℕ} (h : (CompressByteData mem aSize).ret = .NoError) :
    Encodes 1 (CompressByteData mem aSize).aDest (window mem 0 aSize) := by
  have hof := compressLoop_of (byteCodec_correct mem aSize) (cutoffpointer aSize) 0 [] 0
    ⟨one_dvd _, Nat.zero_le _, Encodes.nil⟩
  revert h hof
  unfold CompressByteData
  generalize compressLoop (byteCodec mem aSize) (cutoffpointer aSize) 0 [] 0 = r
  rintro h ⟨hof, -⟩
  have hle := hof.le
  dsimp only at h ⊢
  split at h
  · exact absurd h ‹_›
  · rename_i hok
    rw [if_neg hok]
    split at h
    · rename_i hremaining
      rw [if_pos hremaining]
      split at h
      · exact absurd h (by simp)
      · rename_i hfits
        have happend := hof.encodes.append (encodes_literalBytes (w := 1) mem (p := r.aSrce) hremaining)
        rw [Nat.one_mul, window_split mem hof.le] at happend
        rw [if_neg hfits]
        dsimp only
        rwa [WriteCompressedByteData, writeCompressedData, if_neg (by omega)]
    · rename_i hremaining
      have hof' := hof.encodes
      rw [if_neg hremaining]
      rwa [show r.aSrce = aSize by omega] at hof'

/-! ### Sixteen bits -/

theorem leBytes_word (p : ℕ) : leBytes 2 (word mem p) = window mem p 2 := by
  have h := leBytes_ofLE (window mem p 2)
  rwa [length_window] at h

theorem wordLiteralEnd_aligned {mem : ℕ → UInt8} {limit p : ℕ} (hlimit : 2 ∣ limit) (hp : 2 ∣ p) (h : p ≤ limit) :
    2 ∣ wordLiteralEnd mem limit p ∧ wordLiteralEnd mem limit p ≤ limit :=
  (wordLiteralEnd_search mem limit).ends Nat.two_pos (Q := fun q => 2 ∣ q ∧ q ≤ limit) (fun q hq hlt => by omega) ⟨hp, h⟩

theorem wordScan_aligned {limit p : ℕ} (hlimit : 2 ∣ limit) (hp : 2 ∣ p) (h : p < limit - 2) :
    2 ∣ (wordScan mem limit p).stop ∧ (wordScan mem limit p).stop ≤ limit := by
  rw [wordScan]
  split
  · exact (wordRunEnd_search mem limit _).aligned Nat.two_pos hlimit (by omega) (by omega)
  · exact wordLiteralEnd_aligned hlimit (by omega) (by omega)

theorem wordScan_equal {mem : ℕ → UInt8} {limit p : ℕ} (h : (wordScan mem limit p).isRun = true) {i : ℕ}
    (hi : p + 2 * i < (wordScan mem limit p).stop) : window mem (p + 2 * i) 2 = window mem p 2 := by
  rw [← leBytes_word, ← leBytes_word]
  congr 1
  rw [wordScan] at h hi
  split at h
  · rename_i hfirst
    rw [if_pos hfirst] at hi
    match i with
    | 0 => rfl
    | 1 => exact hfirst
    | i + 2 =>
      rw [show p + 2 * (i + 2) = p + 2 + 2 + 2 * i by omega] at hi ⊢
      exact (wordRunEnd_search mem limit _).passed hi
  · exact absurd h (by simp)

theorem sixteenCodec_correct {limit : ℕ} (hlimit : 2 ∣ limit) : (sixteenCodec mem limit).Correct mem limit where
  aligned p h hp := (wordScan_aligned mem hlimit hp h).1
  stop_le p h hp := (wordScan_aligned mem hlimit hp h).2
  write p h hp := by
    have hstop := (wordScan_aligned mem hlimit hp h).1
    refine write_of_scan (wordScan mem limit p) Nat.two_pos rfl ?_ (Nat.dvd_sub hstop hp) fun hrun i hi => ?_
    · show writeCompressedValues (leBytes 2 (word mem p)) = _
      rw [leBytes_word]
      rfl
    · have hi' : i < ((wordScan mem limit p).stop - p) / 2 := hi
      exact wordScan_equal hrun (by omega)
  writeData := rfl

/-! ### Twenty-four bits -/

theorem pixelLiteralEnd_aligned {mem : ℕ → UInt8} {limit p reach : ℕ} {components : Bytes} (hlimit : 3 ∣ limit)
    (hp : 3 ∣ p) (h : p ≤ limit) : 3 ∣ (pixelLiteralEnd mem limit components p reach).1 ∧
      (pixelLiteralEnd mem limit components p reach).1 ≤ limit :=
  pixelLiteralEnd_ends (Q := fun q _ => 3 ∣ q ∧ q ≤ limit) (fun q _ hq hlt => ⟨by omega, hq⟩) ⟨hp, h⟩

theorem pixelScan_aligned {limit p : ℕ} (hlimit : 3 ∣ limit) (hp : 3 ∣ p) (h : p < limit - 3) :
    3 ∣ (pixelScan mem limit p).stop ∧ (pixelScan mem limit p).stop ≤ limit := by
  rw [pixelScan]
  split
  · exact (pixelRunEnd_search mem limit _).aligned (Nat.succ_pos 2) hlimit (by omega) (by omega)
  · exact pixelLiteralEnd_aligned hlimit (by omega) (by omega)

theorem pixelScan_equal {mem : ℕ → UInt8} {limit p : ℕ} (h : (pixelScan mem limit p).isRun = true) {i : ℕ}
    (hi : p + 3 * i < (pixelScan mem limit p).stop) : window mem (p + 3 * i) 3 = window mem p 3 := by
  rw [pixelScan] at h hi
  split at h
  · rename_i hfirst
    rw [if_pos hfirst] at hi
    match i with
    | 0 => rfl
    | 1 => exact hfirst
    | i + 2 =>
      rw [show p + 3 * (i + 2) = p + 3 + 3 + 3 * i by omega] at hi ⊢
      exact (pixelRunEnd_search mem limit _).passed hi
  · exact absurd h (by simp)

theorem twentyFourCodec_correct {limit : ℕ} (hlimit : 3 ∣ limit) : (twentyFourCodec mem limit).Correct mem limit where
  aligned p h hp := (pixelScan_aligned mem hlimit hp h).1
  stop_le p h hp := (pixelScan_aligned mem hlimit hp h).2
  write p h hp := by
    have hstop := (pixelScan_aligned mem hlimit hp h).1
    refine write_of_scan (pixelScan mem limit p) (Nat.succ_pos 2) rfl rfl (Nat.dvd_sub hstop hp) fun hrun i hi => ?_
    have hi' : i < ((pixelScan mem limit p).stop - p) / 3 := hi
    exact pixelScan_equal hrun (by omega)
  writeData := rfl

/-! ### Twelve bits -/

/-- Words with their top four bits cleared. -/
def clearedWords (mem : ℕ → UInt8) : ℕ → ℕ → Bytes
  | _, 0 => []
  | p, n + 1 => leBytes 2 (word mem p % 4096) ++ clearedWords mem (p + 2) n

theorem clearedWords_add (p m n : ℕ) :
    clearedWords mem p (m + n) = clearedWords mem p m ++ clearedWords mem (p + 2 * m) n := by
  induction m generalizing p with
  | zero => simp [clearedWords]
  | succ m ih =>
    rw [Nat.succ_add, clearedWords, clearedWords, ih, List.append_assoc, show p + 2 + 2 * m = p + 2 * (m + 1) by omega]

theorem clearedWords_of_equal {mem : ℕ → UInt8} {p n value : ℕ} (h : ∀ i < n, word mem (p + 2 * i) = value) :
    clearedWords mem p n = (List.replicate n (leBytes 2 (value % 4096))).flatten := by
  induction n generalizing p with
  | zero => rfl
  | succ n ih =>
    have h0 : word mem p = value := h 0 (Nat.succ_pos n)
    rw [clearedWords, h0, List.replicate_succ, List.flatten_cons, ih fun i hi => ?_]
    have := h (i + 1) (by omega)
    rwa [show p + 2 * (i + 1) = p + 2 + 2 * i by omega] at this

/-- The bytes `out` are words that stand for `src`. -/
def EncodesTwelve (out src : Bytes) : Prop :=
  ∃ ws : List ℕ, (∀ w ∈ ws, w < 65536) ∧ ws.flatMap (leBytes 2) = out ∧ ws.flatMap twelveBitRun = src

theorem EncodesTwelve.append {out src out' src' : Bytes} (h : EncodesTwelve out src) (h' : EncodesTwelve out' src') :
    EncodesTwelve (out ++ out') (src ++ src') := by
  obtain ⟨ws, hw, rfl, rfl⟩ := h
  obtain ⟨ws', hw', rfl, rfl⟩ := h'
  exact ⟨ws ++ ws', List.forall_mem_append.mpr ⟨hw, hw'⟩, by simp, by simp⟩

theorem EncodesTwelve.word (aData : ℕ) (count : ℕ) (hpos : 0 < count) (hle : count ≤ 16) :
    EncodesTwelve (leBytes 2 (aData % 4096 ||| (count - 1) <<< 12))
      (List.replicate count (leBytes 2 (aData % 4096))).flatten := by
  have hor : aData % 4096 ||| (count - 1) <<< 12 = 4096 * (count - 1) + aData % 4096 := by
    rw [Nat.or_comm, Nat.shiftLeft_eq, Nat.mul_comm]
    exact (Nat.two_pow_add_eq_or_of_lt (Nat.mod_lt aData (by omega)) (count - 1)).symm
  refine ⟨[aData % 4096 ||| (count - 1) <<< 12], ?_, by simp, ?_⟩
  · rw [List.forall_mem_singleton, hor]
    omega
  · rw [List.flatMap_singleton, twelveBitRun, hor]
    congr 2
    · omega
    · congr 1
      omega

theorem encodes_twelveBitData (aData : ℕ) {n : ℕ} (hn : 0 < n) :
    EncodesTwelve (WriteCompressedTwelveBitData aData n) (List.replicate n (leBytes 2 (aData % 4096))).flatten := by
  induction n using Nat.strong_induction_on with
  | _ n ih =>
    rw [WriteCompressedTwelveBitData]
    split
    · rename_i h
      have happend := (EncodesTwelve.word aData 16 (by omega) (le_refl 16)).append
        (ih (n - 16) (by omega) (by omega))
      rwa [← List.flatten_append, List.replicate_append_replicate, show 16 + (n - 16) = n by omega] at happend
    · exact EncodesTwelve.word aData n hn (by omega)

/-- A turn writes a run, so that the output stands for what was scanned. -/
theorem compressTwelveLoop_encodes {mem : ℕ → UInt8} {limit p : ℕ} {dest : Bytes} (hlimit : 2 ∣ limit) (hp : 2 ∣ p)
    (hle : p ≤ limit) (h : EncodesTwelve dest (clearedWords mem 0 (p / 2))) :
    EncodesTwelve (compressTwelveLoop mem limit p dest) (clearedWords mem 0 (limit / 2)) := by
  induction hn : limit - p using Nat.strong_induction_on generalizing p dest with
  | _ n ih =>
    subst hn
    rw [compressTwelveLoop]
    split
    · rename_i hlt
      have hgt := lt_twelveRunEnd mem limit (word mem p) p
      obtain ⟨hdvd, hstop⟩ := (twelveRunEnd_search mem limit (word mem p)).aligned (p := p) Nat.two_pos hlimit
        (by omega) (by omega)
      refine ih _ (by omega) hdvd hstop ?_ rfl
      have hrun := encodes_twelveBitData (word mem p) (n := (twelveRunEnd mem limit (word mem p) p - p) / 2) (by omega)
      have hequal : ∀ i < (twelveRunEnd mem limit (word mem p) p - p) / 2, word mem (p + 2 * i) = word mem p := by
        intro i hi
        cases i with
        | zero => rfl
        | succ i =>
          rw [show p + 2 * (i + 1) = p + 2 + 2 * i by omega]
          exact (twelveRunEnd_search mem limit (word mem p)).passed (p := p) (i := i) (by omega)
      have hcat := clearedWords_add mem 0 (p / 2) ((twelveRunEnd mem limit (word mem p) p - p) / 2)
      rw [show 0 + 2 * (p / 2) = p by omega] at hcat
      have happend := h.append hrun
      rw [← clearedWords_of_equal hequal, ← hcat] at happend
      rwa [show p / 2 + (twelveRunEnd mem limit (word mem p) p - p) / 2 = twelveRunEnd mem limit (word mem p) p / 2 by
        omega] at happend
    · rename_i hge
      rwa [show p = limit by omega] at h

theorem expandTwelveLoop_exact {mem : ℕ → UInt8} {ws : List ℕ} (p destPtrLimit : ℕ) (dest : Bytes)
    (hw : ∀ w ∈ ws, w < 65536) (hmem : window mem p (2 * ws.length) = ws.flatMap (leBytes 2))
    (hdest : dest.length + (ws.flatMap twelveBitRun).length = destPtrLimit) :
    expandTwelveLoop mem (p + 2 * ws.length) destPtrLimit p dest = (p + 2 * ws.length, dest ++ ws.flatMap twelveBitRun) := by
  induction ws generalizing p dest with
  | nil =>
    rw [expandTwelveLoop_stop _ _ _ (by simp)]
    simp
  | cons w ws ih =>
    rw [List.forall_mem_cons] at hw
    rw [List.flatMap_cons, List.length_append] at hdest
    rw [List.length_cons, Nat.mul_succ, Nat.add_comm (2 * ws.length), window_add, List.flatMap_cons] at hmem
    obtain ⟨hword, hrest⟩ := List.append_inj hmem (by simp)
    have hvalue : get_u16 (window mem p 2) = w := by
      rw [get_u16, hword, List.take_of_length_le (by simp), ofLE_leBytes_of_lt hw.1]
    have hpos := length_twelveBitRun w
    rw [List.length_cons, show p + 2 * (ws.length + 1) = p + 2 + 2 * ws.length by omega, expandTwelveLoop,
      if_pos ⟨by omega, by omega⟩, hvalue,
      ih _ _ hw.2 hrest (by rw [List.length_append]; omega), List.flatMap_cons, List.append_assoc]

/-! ### The four codecs -/

/-- The bytes of a pixel. -/
def pixelWidth : TBitmapfileCompression → ℕ
  | ETwelveBitRLECompression | ESixteenBitRLECompression => 2
  | ETwentyFourBitRLECompression => 3
  | _ => 1

/-- What an expansion brings back of a source: twelve bits of each word, and else every byte. -/
def original : TBitmapfileCompression → (ℕ → UInt8) → ℕ → Bytes
  | ETwelveBitRLECompression, mem, size => clearedWords mem 0 (size / 2)
  | _, mem, size => window mem 0 size

theorem expandLoop_of_encodes {w : ℕ} (hw : 0 < w) {mem : ℕ → UInt8} {out src : Bytes} (h : Encodes w out src)
    (hmem : window mem 0 out.length = out) :
    expandLoop w mem out.length src.length 0 [] = (out.length, src) := by
  obtain ⟨ps, hvalid, hbytes, houtput⟩ := h
  have hpackets : packets w (window mem 0 (out.length - 0)) = (ps, []) := by
    rw [Nat.sub_zero, hmem, ← hbytes, packets_flatMap_bytes hvalid]
  have hpieces : pieces w (window mem 0 (out.length - 0)) = (ps.map fun p => p.output.length, []) := by
    rw [pieces, hpackets]
  have hexact := expandLoop_exact mem out.length src.length hw 0 [] (Nat.zero_le _) (Nat.zero_le _)
    (by rw [hpieces, ← houtput, List.length_flatMap]; rfl) (by rw [hpieces])
  rw [hexact, hpackets, houtput, List.nil_append]

theorem expand_of_encodes {c : TBitmapfileCompression} {w : ℕ} (hw : 0 < w) {mem : ℕ → UInt8} {out src : Bytes}
    (h : Encodes w out src) (hmem : window mem 0 out.length = out)
    (hc : expandData c src.length mem out.length =
      checkLimits out.length src.length (expandLoop w mem out.length src.length 0 [])) :
    expandData c src.length mem out.length = ⟨.NoError, out.length, src⟩ := by
  rw [hc, expandLoop_of_encodes hw h hmem]
  simp [checkLimits]

theorem length_clearedWords (p n : ℕ) : (clearedWords mem p n).length = 2 * n := by
  induction n generalizing p with
  | zero => rfl
  | succ n ih =>
    rw [clearedWords, List.length_append, length_leBytes, ih]
    omega

theorem expandTwelve_of_encodes {mem mem' : ℕ → UInt8} {out : Bytes} {size : ℕ}
    (h : EncodesTwelve out (clearedWords mem 0 (size / 2))) (hmem : window mem' 0 out.length = out)
    (hlimit : size / 2 * 2 = size) :
    ExpandTwelveBitRLEData size mem' out.length = ⟨.NoError, out.length, clearedWords mem 0 (size / 2)⟩ := by
  obtain ⟨ws, hw, hbytes, hsrc⟩ := h
  have hlen : out.length = 2 * ws.length := by
    rw [← hbytes, List.length_flatMap]
    simp [Nat.mul_comm]
  rw [hlen, ← hbytes] at hmem
  have hexact := expandTwelveLoop_exact 0 size [] hw hmem (by
    rw [hsrc, length_clearedWords, List.length_nil]
    omega)
  rw [Nat.zero_add, ← hlen, List.nil_append, hsrc] at hexact
  rw [ExpandTwelveBitRLEData, hlimit, show out.length / 2 * 2 = out.length by omega, hexact, checkLimits,
    length_clearedWords]
  rw [if_neg (by omega)]

/-- What a compression has written without an error is expanded to the original. -/
theorem compress_expand (iCompression : TBitmapfileCompression) (mem : ℕ → UInt8) {size : ℕ}
    (hsize : pixelWidth iCompression ∣ size) (h : (compressData iCompression mem size).ret = .NoError)
    (beyond : ℕ → UInt8) :
    expandData iCompression size (memoryOf (compressData iCompression mem size).aDest beyond)
        (compressData iCompression mem size).aDest.length =
      ⟨.NoError, (compressData iCompression mem size).aDest.length, original iCompression mem size⟩ := by
  have hmem := window_memoryOf (compressData iCompression mem size).aDest beyond
  cases iCompression with
  | ENoBitmapCompression => exact absurd h (by simp [compressData])
  | EByteRLECompression =>
    have hencodes := encodes_byte h
    have hexpand := expand_of_encodes (c := EByteRLECompression) Nat.one_pos hencodes hmem rfl
    rwa [length_window] at hexpand
  | ETwelveBitRLECompression =>
    have hlimit : size / 2 * 2 = size := Nat.div_mul_cancel hsize
    have hencodes : EncodesTwelve (CompressTwelveBitData mem size).aDest (clearedWords mem 0 (size / 2 * 2 / 2)) :=
      compressTwelveLoop_encodes (Nat.dvd_mul_left 2 _) (Nat.dvd_zero 2) (Nat.zero_le _) ⟨[], by simp, rfl, rfl⟩
    rw [hlimit] at hencodes
    exact expandTwelve_of_encodes hencodes hmem hlimit
  | ESixteenBitRLECompression =>
    have hlimit : size / 2 * 2 = size := Nat.div_mul_cancel hsize
    have hencodes : Encodes 2 (CompressSixteenBitData mem size).aDest (window mem 0 (size / 2 * 2)) :=
      finish_encodes (sixteenCodec_correct mem (Nat.dvd_mul_left 2 (size / 2))) (Nat.dvd_mul_left 2 _) Nat.two_pos h
    have hexpand := expand_of_encodes (c := ESixteenBitRLECompression) Nat.two_pos hencodes hmem (by
      rw [length_window]
      simp only [expandData, ExpandSixteenBitRLEData, Nat.mul_div_cancel _ Nat.two_pos])
    rwa [length_window, hlimit] at hexpand
  | ETwentyFourBitRLECompression =>
    have hencodes := finish_encodes (twentyFourCodec_correct mem hsize) hsize (Nat.succ_pos 2) h
    have hexpand := expand_of_encodes (c := ETwentyFourBitRLECompression) (Nat.succ_pos 2) hencodes hmem rfl
    rwa [length_window] at hexpand

/-- A run of three pixels, and two that are each alone. -/
def sampleRows : ℕ → UInt8 := memoryOf [1, 2, 3, 1, 2, 3, 1, 2, 3, 4, 5, 6, 7, 8, 9] fun _ => 0

theorem compress_expand_run :
    expandData ETwentyFourBitRLECompression 15
        (memoryOf (compressData ETwentyFourBitRLECompression sampleRows 15).aDest fun _ => 0)
        (compressData ETwentyFourBitRLECompression sampleRows 15).aDest.length =
      ⟨.NoError, (compressData ETwentyFourBitRLECompression sampleRows 15).aDest.length,
        original ETwentyFourBitRLECompression sampleRows 15⟩ :=
  compress_expand ETwentyFourBitRLECompression sampleRows (by decide) (by decide +kernel) fun _ => 0

end GnuPoc.Bmconv
