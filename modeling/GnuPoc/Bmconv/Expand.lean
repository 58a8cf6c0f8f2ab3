import GnuPoc.Lib.RunLength
import GnuPoc.Lib.Stdio

/-!
# GnuPoc.Bmconv.Expand — the expansion of compressed bitmaps

`EpocLoader` expands what a multi-bitmap file holds in one of four forms.  Three of them are packets of pixels of
one, two or three bytes; the fourth has words of a pixel and its number.  A buffer is a memory with a size, so that
what a run reads behind it is a read of that memory, and what it writes is the list of the bytes from the start of
the destination on.
-/

namespace GnuPoc.Bmconv

open Lib

/-! ### The four expansions -/

inductive Errors where
  | NoCompression | NoError | UnknownCompression | CompressionError | DecompressionError
  deriving DecidableEq, Repr

inductive TBitmapfileCompression where
  | ENoBitmapCompression | EByteRLECompression | ETwelveBitRLECompression | ESixteenBitRLECompression
  | ETwentyFourBitRLECompression
  deriving DecidableEq, Repr

/-- What an expansion returns, how far it read, and what it wrote. -/
structure Expansion where
  ret : Errors
  aSrce : ℕ
  aDest : Bytes

/-- The loop over packets of pixels of `w` bytes. -/
def expandLoop (w : ℕ) (mem : ℕ → UInt8) (srcelimit destlimit : ℕ) (aSrce : ℕ) (aDest : Bytes) : ℕ × Bytes :=
  if aSrce < srcelimit ∧ aDest.length < destlimit then
    let count := schar (mem aSrce)
    if count < 0 then
      let runLength := (-count).toNat
      expandLoop w mem srcelimit destlimit (aSrce + 1 + w * runLength)
        (aDest ++ window mem (aSrce + 1) (w * runLength))
    else
      expandLoop w mem srcelimit destlimit (aSrce + 1 + w)
        (aDest ++ (List.replicate (count + 1).toNat (window mem (aSrce + 1) w)).flatten)
  else (aSrce, aDest)
termination_by srcelimit - aSrce

/-- The check behind the loop. -/
def checkLimits (srcelimit destlimit : ℕ) (r : ℕ × Bytes) : Expansion :=
  ⟨if r.1 ≠ srcelimit ∨ r.2.length ≠ destlimit then .DecompressionError else .NoError, r.1, r.2⟩

def ExpandByteRLEData (aDestSize : ℕ) (mem : ℕ → UInt8) (aSrceSize : ℕ) : Expansion :=
  checkLimits aSrceSize aDestSize (expandLoop 1 mem aSrceSize aDestSize 0 [])

/-- `destPtr` counts words. -/
def ExpandSixteenBitRLEData (aDestSizeInBytes : ℕ) (mem : ℕ → UInt8) (aSrceSizeInBytes : ℕ) : Expansion :=
  checkLimits aSrceSizeInBytes (aDestSizeInBytes / 2 * 2)
    (expandLoop 2 mem aSrceSizeInBytes (aDestSizeInBytes / 2 * 2) 0 [])

def ExpandTwentyFourBitRLEData (aDestSizeInBytes : ℕ) (mem : ℕ → UInt8) (aSrceSizeInBytes : ℕ) : Expansion :=
  checkLimits aSrceSizeInBytes aDestSizeInBytes (expandLoop 3 mem aSrceSizeInBytes aDestSizeInBytes 0 [])

def get_u16 (b : Bytes) : ℕ := ofLE (b.take 2)

/-- The pixels of one word. -/
def twelveBitRun (value : ℕ) : Bytes := (List.replicate (value / 4096 + 1) (leBytes 2 (value % 4096))).flatten

def expandTwelveLoop (mem : ℕ → UInt8) (srcePtrLimit destPtrLimit : ℕ) (srcePtr : ℕ) (destPtr : Bytes) : ℕ × Bytes :=
  if srcePtr < srcePtrLimit ∧ destPtr.length < destPtrLimit then
    expandTwelveLoop mem srcePtrLimit destPtrLimit (srcePtr + 2)
      (destPtr ++ twelveBitRun (get_u16 (window mem srcePtr 2)))
  else (srcePtr, destPtr)
termination_by srcePtrLimit - srcePtr

/-- Both pointers count words. -/
def ExpandTwelveBitRLEData (aDestSizeInBytes : ℕ) (mem : ℕ → UInt8) (aSrceSizeInBytes : ℕ) : Expansion :=
  checkLimits (aSrceSizeInBytes / 2 * 2) (aDestSizeInBytes / 2 * 2)
    (expandTwelveLoop mem (aSrceSizeInBytes / 2 * 2) (aDestSizeInBytes / 2 * 2) 0 [])

/-- The switch of `DoLoadFile` on the compression of a bitmap that has one. -/
def expandData (iCompression : TBitmapfileCompression) (expandedsize : ℕ) (mem : ℕ → UInt8) (size : ℕ) : Expansion :=
  match iCompression with
  | .EByteRLECompression => ExpandByteRLEData expandedsize mem size
  | .ETwelveBitRLECompression => ExpandTwelveBitRLEData expandedsize mem size
  | .ESixteenBitRLECompression => ExpandSixteenBitRLEData expandedsize mem size
  | .ETwentyFourBitRLECompression => ExpandTwentyFourBitRLEData expandedsize mem size
  | .ENoBitmapCompression => ⟨.UnknownCompression, 0, []⟩

/-! ### One packet -/

theorem schar_eq (c : UInt8) : schar c = if c < 128 then (c.toNat : ℤ) else c.toNat - 256 := by
  have hc : c.toNat < 256 := c.toNat_lt
  have hlt : c < 128 ↔ c.toNat < 128 := UInt8.lt_iff_toNat_lt
  have hint : schar c = c.toBitVec.toInt := rfl
  have hnat : c.toBitVec.toNat = c.toNat := rfl
  simp only [hint, BitVec.toInt_eq_toNat_cond, hnat, hlt]
  split_ifs <;> omega

/-- A turn of the loop takes a whole packet. -/
theorem expandLoop_packet {w : ℕ} {mem : ℕ → UInt8} {srcelimit destlimit aSrce : ℕ} {aDest rest : Bytes} {p : Packet}
    (hs : aSrce < srcelimit) (hd : aDest.length < destlimit)
    (h : Packet.take w (window mem aSrce (srcelimit - aSrce)) = some (p, rest)) :
    expandLoop w mem srcelimit destlimit aSrce aDest =
      expandLoop w mem srcelimit destlimit (aSrce + p.bytes.length) (aDest ++ p.output) ∧
    aSrce + p.bytes.length ≤ srcelimit ∧
    rest = window mem (aSrce + p.bytes.length) (srcelimit - (aSrce + p.bytes.length)) := by
  obtain ⟨k, hk⟩ : ∃ k, srcelimit - aSrce = k + 1 := ⟨srcelimit - aSrce - 1, by omega⟩
  rw [hk, window_succ, Packet.take, length_window] at h
  rw [expandLoop, if_pos ⟨hs, hd⟩]
  simp only [schar_eq]
  by_cases hc : mem aSrce < 128
  · have hc' : (mem aSrce).toNat < 128 := UInt8.lt_iff_toNat_lt.mp hc
    rw [if_pos hc, Option.ite_none_right_eq_some] at h
    obtain ⟨hw, h⟩ := h
    rw [take_window _ _ hw, drop_window _ _ hw, Option.some.injEq, Prod.mk.injEq] at h
    obtain ⟨rfl, rfl⟩ := h
    rw [if_pos hc, if_neg (by omega)]
    simp only [Packet.bytes, Packet.output, List.length_cons, length_window]
    refine ⟨?_, by omega, ?_⟩
    · rw [show ((mem aSrce).toNat + 1 : ℤ).toNat = (mem aSrce).toNat + 1 by omega, Nat.add_assoc, Nat.add_comm 1 w]
    · rw [Nat.add_assoc, Nat.add_comm 1 w]
      congr 1
      omega
  · have hc' : ¬ (mem aSrce).toNat < 128 := fun hlt => hc (UInt8.lt_iff_toNat_lt.mpr hlt)
    have hlt : (mem aSrce).toNat < 256 := (mem aSrce).toNat_lt
    rw [if_neg hc, Option.ite_none_right_eq_some] at h
    obtain ⟨hw, h⟩ := h
    rw [take_window _ _ hw, drop_window _ _ hw, Option.some.injEq, Prod.mk.injEq] at h
    obtain ⟨rfl, rfl⟩ := h
    rw [if_neg hc, if_pos (by omega), show (-(((mem aSrce).toNat : ℤ) - 256)).toNat = 256 - (mem aSrce).toNat by omega]
    simp only [Packet.bytes, Packet.output, List.length_cons, length_window]
    refine ⟨?_, by omega, ?_⟩
    · rw [Nat.add_assoc, Nat.add_comm 1]
    · rw [Nat.add_assoc, Nat.add_comm 1]
      congr 1
      omega

theorem expandLoop_cut {w : ℕ} {mem : ℕ → UInt8} {srcelimit destlimit aSrce : ℕ} {aDest : Bytes}
    (hs : aSrce < srcelimit) (hd : aDest.length < destlimit)
    (h : Packet.take w (window mem aSrce (srcelimit - aSrce)) = none) :
    srcelimit < (expandLoop w mem srcelimit destlimit aSrce aDest).1 := by
  obtain ⟨k, hk⟩ : ∃ k, srcelimit - aSrce = k + 1 := ⟨srcelimit - aSrce - 1, by omega⟩
  rw [hk, window_succ, Packet.take, length_window] at h
  rw [expandLoop, if_pos ⟨hs, hd⟩]
  simp only [schar_eq]
  by_cases hc : mem aSrce < 128
  · rw [if_pos hc, ite_eq_right_iff] at h
    have hw : ¬ w ≤ k := fun hw => absurd (h hw) (by simp)
    rw [if_pos hc, if_neg (by omega), expandLoop, if_neg (by omega)]
    show srcelimit < aSrce + 1 + w
    omega
  · have hlt : (mem aSrce).toNat < 256 := (mem aSrce).toNat_lt
    rw [if_neg hc, ite_eq_right_iff] at h
    have hw : ¬ w * (256 - (mem aSrce).toNat) ≤ k := fun hw => absurd (h hw) (by simp)
    rw [if_neg hc, if_pos (by omega), show (-(((mem aSrce).toNat : ℤ) - 256)).toNat = 256 - (mem aSrce).toNat by omega,
      expandLoop, if_neg (by omega)]
    show srcelimit < aSrce + 1 + w * (256 - (mem aSrce).toNat)
    omega

/-! ### The whole loop -/

/-- The sizes of what the packets of a buffer expand to, and what is left behind the last complete one. -/
def pieces (w : ℕ) (data : Bytes) : List ℕ × Bytes :=
  ((packets w data).1.map fun p => p.output.length, (packets w data).2)

theorem pieces_some {w : ℕ} {data rest : Bytes} {p : Packet} (h : Packet.take w data = some (p, rest)) :
    pieces w data = (p.output.length :: (pieces w rest).1, (pieces w rest).2) := by
  simp only [pieces, packets_some h, List.map_cons]

theorem pieces_none {w : ℕ} {data : Bytes} (h : Packet.take w data = none) : pieces w data = ([], data) := by
  simp only [pieces, packets_none h, List.map_nil]

theorem expandLoop_stop {w : ℕ} {mem : ℕ → UInt8} {srcelimit destlimit aSrce : ℕ} {aDest : Bytes}
    (h : ¬ (aSrce < srcelimit ∧ aDest.length < destlimit)) :
    expandLoop w mem srcelimit destlimit aSrce aDest = (aSrce, aDest) := by
  rw [expandLoop, if_neg h]

section
variable {w : ℕ} (mem : ℕ → UInt8) (srcelimit destlimit : ℕ)

/-- The loop stays inside both buffers exactly when the packets can be laid into the destination. -/
theorem expandLoop_inside (aSrce : ℕ) (aDest : Bytes) (hs : aSrce ≤ srcelimit) (hd : aDest.length ≤ destlimit) :
    ((expandLoop w mem srcelimit destlimit aSrce aDest).1 ≤ srcelimit ∧
      (expandLoop w mem srcelimit destlimit aSrce aDest).2.length ≤ destlimit) ↔
    LaidInto ((pieces w (window mem aSrce (srcelimit - aSrce))).2 ≠ [])
      (pieces w (window mem aSrce (srcelimit - aSrce))).1 (destlimit - aDest.length) := by
  induction hn : srcelimit - aSrce using Nat.strong_induction_on generalizing aSrce aDest with
  | _ n ih =>
    subst hn
    by_cases hgo : aSrce < srcelimit ∧ aDest.length < destlimit
    swap
    · rw [expandLoop_stop hgo]
      refine iff_of_true ⟨hs, hd⟩ ?_
      by_cases hroom : destlimit - aDest.length = 0
      · rw [hroom]
        cases (pieces w (window mem aSrce (srcelimit - aSrce))).1 with
        | nil => exact Or.inl rfl
        | cons size sizes => exact Or.inl rfl
      · rw [show srcelimit - aSrce = 0 by omega, window_zero, pieces_none rfl]
        exact Or.inr fun h => h rfl
    have hroom : destlimit - aDest.length ≠ 0 := by omega
    cases htake : Packet.take w (window mem aSrce (srcelimit - aSrce)) with
    | none =>
      have hcut := expandLoop_cut hgo.1 hgo.2 htake
      rw [pieces_none htake]
      refine iff_of_false (fun h => by omega) ?_
      rintro (h | h)
      · exact hroom h
      · refine h fun hnil => ?_
        have := congrArg List.length hnil
        rw [length_window, List.length_nil] at this
        omega
    | some found =>
      obtain ⟨p, rest⟩ := found
      obtain ⟨hstep, hle, rfl⟩ := expandLoop_packet hgo.1 hgo.2 htake
      have hpos := p.length_bytes_pos
      rw [hstep, pieces_some htake, LaidInto]
      simp only [hroom, false_or]
      by_cases hfit : p.output.length ≤ destlimit - aDest.length
      · rw [ih _ (by omega) _ _ hle (by rw [List.length_append]; omega) rfl, List.length_append]
        simp only [hfit, true_and, Nat.sub_sub]
      · rw [expandLoop_stop (by rw [List.length_append]; omega)]
        refine iff_of_false (fun h => ?_) fun h => hfit h.1
        have := h.2
        rw [List.length_append] at this
        omega

/-- Packets that fill the rest of the destination exactly are expanded one behind the other. -/
theorem expandLoop_exact (hw : 0 < w) (aSrce : ℕ) (aDest : Bytes) (hs : aSrce ≤ srcelimit) (hd : aDest.length ≤ destlimit)
    (hsum : (pieces w (window mem aSrce (srcelimit - aSrce))).1.sum = destlimit - aDest.length)
    (hrest : (pieces w (window mem aSrce (srcelimit - aSrce))).2 = []) :
    expandLoop w mem srcelimit destlimit aSrce aDest =
      (srcelimit, aDest ++ (packets w (window mem aSrce (srcelimit - aSrce))).1.flatMap Packet.output) := by
  induction hn : srcelimit - aSrce using Nat.strong_induction_on generalizing aSrce aDest with
  | _ n ih =>
    subst hn
    cases htake : Packet.take w (window mem aSrce (srcelimit - aSrce)) with
    | none =>
      rw [pieces_none htake] at hrest
      have hlen := congrArg List.length hrest
      rw [length_window, List.length_nil] at hlen
      rw [expandLoop_stop (by omega), packets_none htake, List.flatMap_nil, List.append_nil]
      congr 1
      omega
    | some found =>
      obtain ⟨p, rest⟩ := found
      have hpos := p.length_bytes_pos
      have hout := Packet.length_output_pos hw (Packet.take_eq_some htake).1
      have hlen := congrArg List.length (Packet.take_eq_some htake).2
      rw [length_window, List.length_append] at hlen
      rw [pieces_some htake] at hsum hrest
      rw [List.sum_cons] at hsum
      obtain ⟨hstep, hle, rfl⟩ := @expandLoop_packet w mem srcelimit destlimit aSrce aDest _ _ (by omega) (by omega) htake
      rw [hstep, ih _ (by omega) _ _ hle (by rw [List.length_append]; omega) (by rw [List.length_append]; omega) hrest rfl,
        packets_some htake, List.flatMap_cons, List.append_assoc]

/-- A loop that fills the destination exactly has taken whole packets only. -/
theorem expandLoop_ends (aSrce : ℕ) (aDest : Bytes) (hs : aSrce ≤ srcelimit) (hd : aDest.length ≤ destlimit)
    (h1 : (expandLoop w mem srcelimit destlimit aSrce aDest).1 = srcelimit)
    (h2 : (expandLoop w mem srcelimit destlimit aSrce aDest).2.length = destlimit) :
    (pieces w (window mem aSrce (srcelimit - aSrce))).1.sum = destlimit - aDest.length ∧
      (pieces w (window mem aSrce (srcelimit - aSrce))).2 = [] := by
  induction hn : srcelimit - aSrce using Nat.strong_induction_on generalizing aSrce aDest with
  | _ n ih =>
    subst hn
    by_cases hgo : aSrce < srcelimit ∧ aDest.length < destlimit
    swap
    · rw [expandLoop_stop hgo] at h1 h2
      dsimp only at h1 h2
      rw [h1, h2, Nat.sub_self, Nat.sub_self, window_zero, pieces_none rfl]
      exact ⟨rfl, rfl⟩
    cases htake : Packet.take w (window mem aSrce (srcelimit - aSrce)) with
    | none =>
      have hcut := expandLoop_cut hgo.1 hgo.2 htake
      omega
    | some found =>
      obtain ⟨p, rest⟩ := found
      obtain ⟨hstep, hle, rfl⟩ := expandLoop_packet hgo.1 hgo.2 htake
      have hpos := p.length_bytes_pos
      rw [hstep] at h1 h2
      rw [pieces_some htake, List.sum_cons]
      by_cases hfit : aDest.length + p.output.length ≤ destlimit
      · have hih := ih _ (by omega) _ _ hle (by rw [List.length_append]; omega) h1 h2 rfl
        rw [List.length_append] at hih
        exact ⟨by omega, hih.2⟩
      · rw [expandLoop_stop (by rw [List.length_append]; omega), List.length_append] at h2
        omega

theorem expandLoop_dvd (aSrce : ℕ) (aDest : Bytes) (h : w ∣ aDest.length) :
    w ∣ (expandLoop w mem srcelimit destlimit aSrce aDest).2.length := by
  induction hn : srcelimit - aSrce using Nat.strong_induction_on generalizing aSrce aDest with
  | _ n ih =>
    subst hn
    by_cases hgo : aSrce < srcelimit ∧ aDest.length < destlimit
    swap
    · rwa [expandLoop_stop hgo]
    rw [expandLoop, if_pos hgo]
    dsimp only
    split
    · refine ih _ (by omega) _ _ ?_ rfl
      rw [List.length_append, length_window]
      exact Nat.dvd_add h (Nat.dvd_mul_right w _)
    · refine ih _ (by omega) _ _ ?_ rfl
      rw [List.length_append]
      refine Nat.dvd_add h ?_
      simp

end

/-! ### Words of twelve bits -/

/-- The sizes of what the words of a buffer expand to. -/
def twelvePieces (mem : ℕ → UInt8) : ℕ → ℕ → List ℕ
  | _, 0 => []
  | srcePtr, n + 1 => (twelveBitRun (get_u16 (window mem srcePtr 2))).length :: twelvePieces mem (srcePtr + 2) n

theorem length_twelveBitRun (value : ℕ) : (twelveBitRun value).length = (value / 4096 + 1) * 2 := by
  simp [twelveBitRun]

section
variable (mem : ℕ → UInt8) (srcePtrLimit destPtrLimit : ℕ)

theorem expandTwelveLoop_stop {srcePtr : ℕ} {destPtr : Bytes}
    (h : ¬ (srcePtr < srcePtrLimit ∧ destPtr.length < destPtrLimit)) :
    expandTwelveLoop mem srcePtrLimit destPtrLimit srcePtr destPtr = (srcePtr, destPtr) := by
  rw [expandTwelveLoop, if_neg h]

theorem expandTwelveLoop_srce {n srcePtr : ℕ} (destPtr : Bytes) (hs : srcePtr + 2 * n = srcePtrLimit) :
    (expandTwelveLoop mem srcePtrLimit destPtrLimit srcePtr destPtr).1 ≤ srcePtrLimit := by
  induction n generalizing srcePtr destPtr with
  | zero =>
    rw [expandTwelveLoop_stop _ _ _ (by omega)]
    exact hs.le
  | succ n ih =>
    rw [expandTwelveLoop]
    split
    · exact ih _ (by omega)
    · show srcePtr ≤ srcePtrLimit
      omega

theorem expandTwelveLoop_inside {n srcePtr : ℕ} (destPtr : Bytes) (hs : srcePtr + 2 * n = srcePtrLimit)
    (hd : destPtr.length ≤ destPtrLimit) :
    (expandTwelveLoop mem srcePtrLimit destPtrLimit srcePtr destPtr).2.length ≤ destPtrLimit ↔
      LaidInto False (twelvePieces mem srcePtr n) (destPtrLimit - destPtr.length) := by
  induction n generalizing srcePtr destPtr with
  | zero =>
    rw [expandTwelveLoop_stop _ _ _ (by omega)]
    exact iff_of_true hd (Or.inr id)
  | succ n ih =>
    rw [expandTwelveLoop, twelvePieces, LaidInto]
    by_cases hroom : destPtr.length < destPtrLimit
    · rw [if_pos ⟨by omega, hroom⟩]
      simp only [show destPtrLimit - destPtr.length ≠ 0 by omega, false_or]
      by_cases hfit : (twelveBitRun (get_u16 (window mem srcePtr 2))).length ≤ destPtrLimit - destPtr.length
      · rw [ih _ (by omega) (by rw [List.length_append]; omega), List.length_append]
        simp only [hfit, true_and, Nat.sub_sub]
      · rw [expandTwelveLoop_stop _ _ _ (by rw [List.length_append]; omega), List.length_append]
        exact iff_of_false (by omega) fun h => hfit h.1
    · rw [if_neg (by omega)]
      exact iff_of_true hd (Or.inl (by omega))

theorem expandTwelveLoop_ends {n srcePtr : ℕ} (destPtr : Bytes) (hs : srcePtr + 2 * n = srcePtrLimit)
    (hd : destPtr.length ≤ destPtrLimit) :
    ((expandTwelveLoop mem srcePtrLimit destPtrLimit srcePtr destPtr).1 = srcePtrLimit ∧
      (expandTwelveLoop mem srcePtrLimit destPtrLimit srcePtr destPtr).2.length = destPtrLimit) ↔
      (twelvePieces mem srcePtr n).sum = destPtrLimit - destPtr.length := by
  induction n generalizing srcePtr destPtr with
  | zero =>
    rw [expandTwelveLoop_stop _ _ _ (by omega)]
    simp only [twelvePieces, List.sum_nil]
    omega
  | succ n ih =>
    have hpos := length_twelveBitRun (get_u16 (window mem srcePtr 2))
    rw [expandTwelveLoop, twelvePieces, List.sum_cons]
    by_cases hroom : destPtr.length < destPtrLimit
    · rw [if_pos ⟨by omega, hroom⟩]
      by_cases hfit : (twelveBitRun (get_u16 (window mem srcePtr 2))).length ≤ destPtrLimit - destPtr.length
      · rw [ih _ (by omega) (by rw [List.length_append]; omega), List.length_append]
        omega
      · rw [expandTwelveLoop_stop _ _ _ (by rw [List.length_append]; omega), List.length_append]
        exact iff_of_false (by dsimp only; omega) (by omega)
    · rw [if_neg (by omega)]
      exact iff_of_false (by dsimp only; omega) (by omega)

theorem expandTwelveLoop_dvd {n srcePtr : ℕ} (destPtr : Bytes) (hs : srcePtr + 2 * n = srcePtrLimit)
    (h : 2 ∣ destPtr.length) : 2 ∣ (expandTwelveLoop mem srcePtrLimit destPtrLimit srcePtr destPtr).2.length := by
  induction n generalizing srcePtr destPtr with
  | zero => rwa [expandTwelveLoop_stop _ _ _ (by omega)]
  | succ n ih =>
    rw [expandTwelveLoop]
    split
    · refine ih _ (by omega) ?_
      rw [List.length_append, length_twelveBitRun]
      exact Nat.dvd_add h (Nat.dvd_mul_left 2 _)
    · exact h

end

end GnuPoc.Bmconv
