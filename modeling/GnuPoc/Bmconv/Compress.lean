import GnuPoc.Bmconv.Expand

/-!
# GnuPoc.Bmconv.Compress — the compression of bitmaps

`BitmapCompiler` compresses the pixels of a bitmap in a form that `EpocLoader` expands.  The three forms with
packets share one loop: it scans a stretch of equal or of unequal pixels, writes it in packets and looks whether the
output has grown too long.  What differs is the scan and the end.  The source is a memory with a size; a run also
says how far it has read in it.
-/

namespace GnuPoc.Bmconv

open Lib

/-! ### Writing a stretch -/

/-- What a function that writes returns, and what it puts at `aDest`. -/
structure Written where
  ret : Errors
  bytes : Bytes

/-- Pixels of `w` bytes as they are, in packets of at most 128. -/
def literalBytes (w : ℕ) (mem : ℕ → UInt8) (aData aLength : ℕ) : Bytes :=
  if 128 < aLength then
    128 :: window mem aData (w * 128) ++ literalBytes w mem (aData + w * 128) (aLength - 128)
  else UInt8.ofNat (256 - aLength) :: window mem aData (w * aLength)
termination_by aLength

def writeCompressedData (w : ℕ) (mem : ℕ → UInt8) (aData aLength : ℕ) : Written :=
  if aLength < 1 then ⟨.CompressionError, []⟩ else ⟨.NoError, literalBytes w mem aData aLength⟩

/-- One pixel a number of times, in packets of at most 128. -/
def runBytes (aValue : Bytes) (aLength : ℕ) : Bytes :=
  if 128 < aLength then 127 :: aValue ++ runBytes aValue (aLength - 128)
  else UInt8.ofNat (aLength - 1) :: aValue
termination_by aLength

def writeCompressedValues (aValue : Bytes) (aLength : ℕ) : Written :=
  if aLength < 1 then ⟨.CompressionError, []⟩ else ⟨.NoError, runBytes aValue aLength⟩

def WriteCompressedByteData := writeCompressedData 1

def WriteCompressedByteValues (aValue : UInt8) := writeCompressedValues [aValue]

/-- The words of the source are stored low byte first, as they are written. -/
def WriteCompressedSixteenBitData := writeCompressedData 2

def WriteCompressedSixteenBitValues (aValue : ℕ) := writeCompressedValues (leBytes 2 aValue)

def WriteCompressedTwentyFourBitData := writeCompressedData 3

def WriteCompressedTwentyFourBitValues (aComponent1 aComponent2 aComponent3 : UInt8) :=
  writeCompressedValues [aComponent1, aComponent2, aComponent3]

/-! ### The loop -/

/-- A stretch of pixels from `p` on: where it stops, whether its pixels are equal, and how far the scan has read. -/
structure Scan (p : ℕ) where
  stop : ℕ
  lt : p < stop
  isRun : Bool
  reach : ℕ

/-- How a codec of pixels of `w` bytes scans in front of `bound`, and how it writes what it finds. -/
structure Codec (bound : ℕ) where
  scan : (p : ℕ) → p < bound → Scan p
  writeValues : ℕ → ℕ → Written
  writeData : ℕ → ℕ → Written
  width : ℕ

def Codec.write {bound : ℕ} (c : Codec bound) {p : ℕ} (s : Scan p) : Written :=
  if s.isRun then c.writeValues p ((s.stop - p) / c.width) else c.writeData p ((s.stop - p) / c.width)

/-- What a compression returns, where it stands in the source, what it has written, and how far it has read. -/
structure Compression where
  ret : Errors
  aSrce : ℕ
  aDest : Bytes
  reach : ℕ

def compressLoop {bound : ℕ} (c : Codec bound) (cutoff : ℤ) (aSrce : ℕ) (aDest : Bytes) (reach : ℕ) : Compression :=
  if h : aSrce < bound then
    let s := c.scan aSrce h
    let written := c.write s
    let aDest' := aDest ++ written.bytes
    let reach' := max reach (max s.reach s.stop)
    if written.ret ≠ .NoError then ⟨written.ret, s.stop, aDest', reach'⟩
    else if cutoff < aDest'.length then ⟨.NoCompression, s.stop, aDest', reach'⟩
    else compressLoop c cutoff s.stop aDest' reach'
  else ⟨.NoError, aSrce, aDest, reach⟩
termination_by bound - aSrce
decreasing_by
  have := (c.scan aSrce h).lt
  omega

/-! ### Eight bits -/

/-- `while(*bytepointer==value && bytepointer<limitmargin) bytepointer++;` -/
def byteRunEnd (mem : ℕ → UInt8) (limitmargin : ℕ) (value : UInt8) (bytepointer : ℕ) : ℕ :=
  if mem bytepointer = value ∧ bytepointer < limitmargin then byteRunEnd mem limitmargin value (bytepointer + 1)
  else bytepointer
termination_by limitmargin - bytepointer

/-- Two bytes behind the pointer that are equal to the one at it. -/
def byteRunAt (mem : ℕ → UInt8) (p : ℕ) : Prop := mem (p + 1) = mem p ∧ mem (p + 2) = mem p

instance (mem : ℕ → UInt8) (p : ℕ) : Decidable (byteRunAt mem p) := by
  unfold byteRunAt
  infer_instance

def byteLiteralEnd (mem : ℕ → UInt8) (limitmargin bytepointer : ℕ) : ℕ :=
  if bytepointer < limitmargin ∧ ¬ byteRunAt mem bytepointer then byteLiteralEnd mem limitmargin (bytepointer + 1)
  else bytepointer
termination_by limitmargin - bytepointer

variable (mem : ℕ → UInt8)

theorem byteRunEnd_search (limitmargin : ℕ) (value : UInt8) :
    Search 1 0 limitmargin (mem · = value) (byteRunEnd mem limitmargin value) where
  turn p := by
    rw [byteRunEnd]
    split
    · next h => exact .inl ⟨h.1, h.2, rfl⟩
    · exact .inr rfl

theorem le_byteRunEnd (limitmargin : ℕ) (value : UInt8) (p : ℕ) : p ≤ byteRunEnd mem limitmargin value p :=
  (byteRunEnd_search mem limitmargin value).le Nat.one_pos p

theorem byteLiteralEnd_search (limitmargin : ℕ) :
    Search 1 0 limitmargin (¬ byteRunAt mem ·) (byteLiteralEnd mem limitmargin) where
  turn p := by
    rw [byteLiteralEnd]
    split
    · next h => exact .inl ⟨h.2, h.1, rfl⟩
    · exact .inr rfl

theorem le_byteLiteralEnd (limitmargin p : ℕ) : p ≤ byteLiteralEnd mem limitmargin p :=
  (byteLiteralEnd_search mem limitmargin).le Nat.one_pos p

/-- How far the search for the end of unequal bytes has read when it stops. -/
def byteLiteralReach (mem : ℕ → UInt8) (limitmargin stop : ℕ) : ℕ :=
  if stop < limitmargin then stop + 3 else if mem stop = mem (stop - 1) then stop + 2 else stop + 1

def byteScan (mem : ℕ → UInt8) (limitmargin p : ℕ) (h : p < limitmargin) : Scan p :=
  if hrun : byteRunAt mem p then
    ⟨byteRunEnd mem limitmargin (mem p) (p + 3), by have := le_byteRunEnd mem limitmargin (mem p) (p + 3); omega, true,
      byteRunEnd mem limitmargin (mem p) (p + 3) + 1⟩
  else
    ⟨byteLiteralEnd mem limitmargin p, by
      rw [byteLiteralEnd, if_pos ⟨h, hrun⟩]
      exact le_byteLiteralEnd mem limitmargin (p + 1), false,
      byteLiteralReach mem limitmargin (byteLiteralEnd mem limitmargin p)⟩

def limitmargin (aSize : ℕ) : ℕ := aSize - max (aSize / 64) 4

def cutoffpointer (aSize : ℕ) : ℕ := aSize / 2 + aSize / 4

def byteCodec (mem : ℕ → UInt8) (aSize : ℕ) : Codec (limitmargin aSize) where
  scan := byteScan mem (limitmargin aSize)
  writeValues p := WriteCompressedByteValues (mem p)
  writeData := WriteCompressedByteData mem
  width := 1

def CompressByteData (mem : ℕ → UInt8) (aSize : ℕ) : Compression :=
  let r := compressLoop (byteCodec mem aSize) (cutoffpointer aSize) 0 [] 0
  if r.ret ≠ .NoError then r
  else
    let remaining := aSize - r.aSrce
    if 0 < remaining then
      if cutoffpointer aSize < r.aDest.length + remaining then { r with ret := .NoCompression }
      else
        let written := WriteCompressedByteData mem r.aSrce remaining
        ⟨written.ret, r.aSrce, r.aDest ++ written.bytes, max r.reach aSize⟩
    else r

/-! ### Sixteen bits -/

/-- The word at an address. -/
def word (mem : ℕ → UInt8) (p : ℕ) : ℕ := ofLE (window mem p 2)

/-- `do srcePtr++; while(*srcePtr == value && srcePtr < srceLimitPtr);` -/
def wordRunEnd (mem : ℕ → UInt8) (limit value srcePtr : ℕ) : ℕ :=
  if word mem (srcePtr + 2) = value ∧ srcePtr + 2 < limit then wordRunEnd mem limit value (srcePtr + 2)
  else srcePtr + 2
termination_by limit - srcePtr

/-- The search goes on until a word is followed by an equal one. -/
def wordLiteralEnd (mem : ℕ → UInt8) (limit srcePtr : ℕ) : ℕ :=
  if srcePtr + 2 < limit ∧ word mem (srcePtr + 2) ≠ word mem srcePtr then wordLiteralEnd mem limit (srcePtr + 2)
  else srcePtr
termination_by limit - srcePtr

theorem wordRunEnd_search (limit value : ℕ) : Search 2 2 limit (word mem · = value) (wordRunEnd mem limit value) where
  turn p := by
    rw [wordRunEnd]
    split
    · next h => exact .inl ⟨h.1, h.2, rfl⟩
    · exact .inr rfl

theorem lt_wordRunEnd (limit value p : ℕ) : p < wordRunEnd mem limit value p :=
  lt_of_lt_of_le (by omega) ((wordRunEnd_search mem limit value).le Nat.two_pos p)

theorem wordLiteralEnd_search (limit : ℕ) :
    Search 2 0 (limit - 2) (fun p => word mem (p + 2) ≠ word mem p) (wordLiteralEnd mem limit) where
  turn p := by
    rw [wordLiteralEnd]
    split
    · next h => exact .inl ⟨h.2, by omega, rfl⟩
    · exact .inr rfl

theorem le_wordLiteralEnd (limit p : ℕ) : p ≤ wordLiteralEnd mem limit p :=
  (wordLiteralEnd_search mem limit).le Nat.two_pos p

/-- A run is looked for at the end of the source too: the word behind the last one of a run is read before the
pointer is compared with the limit. -/
def wordScan (mem : ℕ → UInt8) (limit p : ℕ) : Scan p :=
  if word mem (p + 2) = word mem p then
    ⟨wordRunEnd mem limit (word mem p) (p + 2), by have := lt_wordRunEnd mem limit (word mem p) (p + 2); omega, true,
      wordRunEnd mem limit (word mem p) (p + 2) + 2⟩
  else
    ⟨wordLiteralEnd mem limit (p + 2), by have := le_wordLiteralEnd mem limit (p + 2); omega, false,
      if wordLiteralEnd mem limit (p + 2) + 2 < limit then wordLiteralEnd mem limit (p + 2) + 4
      else wordLiteralEnd mem limit (p + 2) + 2⟩

/-- `aSizeInBytes * 7 / 8` of an `int` that wraps. -/
def destCompressedLimit (aSizeInBytes : ℕ) : ℤ := (Int32.ofNat (aSizeInBytes * 7)).toInt.tdiv 8

/-- What follows the loop where pixels are left: the last ones are written before the output is measured. -/
def finish {bound : ℕ} (c : Codec bound) (limit : ℕ) (cutoff : ℤ) (r : Compression) : Compression :=
  if r.ret ≠ .NoError then r
  else if r.aSrce < limit then
    let count := (limit - r.aSrce) / c.width
    let written := c.writeData r.aSrce count
    let aDest := r.aDest ++ written.bytes
    let reach := max r.reach (r.aSrce + c.width * count)
    if written.ret ≠ .NoError then ⟨written.ret, r.aSrce, aDest, reach⟩
    else if cutoff < aDest.length then ⟨.NoCompression, r.aSrce, aDest, reach⟩
    else ⟨.NoError, r.aSrce, aDest, reach⟩
  else if cutoff < r.aDest.length then { r with ret := .NoCompression }
  else r

def sixteenCodec (mem : ℕ → UInt8) (limit : ℕ) : Codec (limit - 2) where
  scan p _ := wordScan mem limit p
  writeValues p := WriteCompressedSixteenBitValues (word mem p)
  writeData := WriteCompressedSixteenBitData mem
  width := 2

def CompressSixteenBitData (mem : ℕ → UInt8) (aSizeInBytes : ℕ) : Compression :=
  let limit := aSizeInBytes / 2 * 2
  finish (sixteenCodec mem limit) limit (destCompressedLimit aSizeInBytes)
    (compressLoop (sixteenCodec mem limit) (destCompressedLimit aSizeInBytes) 0 [] 0)

/-! ### Twenty-four bits -/

def TrueColorPointerCompare (mem : ℕ → UInt8) (aColorPointer : ℕ) (components : Bytes) : Prop :=
  window mem aColorPointer 3 = components

instance (mem : ℕ → UInt8) (p : ℕ) (components : Bytes) : Decidable (TrueColorPointerCompare mem p components) :=
  inferInstanceAs (Decidable (window mem p 3 = components))

/-- A comparison reads no further than the first component that differs. -/
def compareReach (mem : ℕ → UInt8) (aColorPointer : ℕ) (components : Bytes) : ℕ :=
  if window mem aColorPointer 1 ≠ components.take 1 then aColorPointer + 1
  else if window mem aColorPointer 2 ≠ components.take 2 then aColorPointer + 2
  else aColorPointer + 3

/-- `do aSrce += 3; while (aSrce < srceLimitPtr && TrueColorPointerCompare(...));`, and how far it has read. -/
def pixelRunEnd (mem : ℕ → UInt8) (limit : ℕ) (components : Bytes) (aSrce : ℕ) : ℕ × ℕ :=
  if aSrce + 3 < limit then
    if TrueColorPointerCompare mem (aSrce + 3) components then pixelRunEnd mem limit components (aSrce + 3)
    else (aSrce + 3, compareReach mem (aSrce + 3) components)
  else (aSrce + 3, aSrce + 3)
termination_by limit - aSrce

/-- The search goes on until a pixel is followed by an equal one, and how far it has read. -/
def pixelLiteralEnd (mem : ℕ → UInt8) (limit : ℕ) (components : Bytes) (aSrce reach : ℕ) : ℕ × ℕ :=
  if aSrce + 3 < limit then
    if TrueColorPointerCompare mem (aSrce + 3) components then (aSrce, aSrce + 6)
    else pixelLiteralEnd mem limit (window mem (aSrce + 3) 3) (aSrce + 3) (aSrce + 6)
  else (aSrce, reach)
termination_by limit - aSrce

theorem pixelRunEnd_search (limit : ℕ) (components : Bytes) :
    Search 3 3 limit (window mem · 3 = components) (fun p => (pixelRunEnd mem limit components p).1) where
  turn p := by
    rw [pixelRunEnd]
    split
    · next hlt =>
      split
      · next h => exact .inl ⟨h, hlt, rfl⟩
      · exact .inr rfl
    · exact .inr rfl

theorem lt_pixelRunEnd (limit : ℕ) (components : Bytes) (p : ℕ) : p < (pixelRunEnd mem limit components p).1 :=
  lt_of_lt_of_le (by omega) ((pixelRunEnd_search mem limit components).le (Nat.succ_pos 2) p)

/-- What each step and the end keep holds of where the search stops and how far it has read. -/
theorem pixelLiteralEnd_ends {mem : ℕ → UInt8} {limit : ℕ} {Q : ℕ → ℕ → Prop}
    (hstep : ∀ q r, Q q r → q + 3 < limit → Q (q + 3) (q + 6) ∧ Q q (q + 6)) {components : Bytes} {p reach : ℕ}
    (h : Q p reach) :
    Q (pixelLiteralEnd mem limit components p reach).1 (pixelLiteralEnd mem limit components p reach).2 := by
  induction hn : limit - p using Nat.strong_induction_on generalizing components p reach with
  | _ n ih =>
    subst hn
    rw [pixelLiteralEnd]
    split
    · next hlt =>
      split
      · exact (hstep p reach h hlt).2
      · exact ih _ (by omega) (hstep p reach h hlt).1 rfl
    · exact h

theorem le_pixelLiteralEnd (limit : ℕ) (components : Bytes) (p reach : ℕ) :
    p ≤ (pixelLiteralEnd mem limit components p reach).1 :=
  @pixelLiteralEnd_ends mem limit (fun q _ => p ≤ q) (fun q _ hq _ => ⟨by omega, hq⟩) components p reach le_rfl

/-- Behind two unequal pixels the search for an equal pair begins one pixel late, with the second of the two. -/
def pixelScan (mem : ℕ → UInt8) (limit p : ℕ) : Scan p :=
  if TrueColorPointerCompare mem (p + 3) (window mem p 3) then
    ⟨(pixelRunEnd mem limit (window mem p 3) (p + 3)).1, by
      have := lt_pixelRunEnd mem limit (window mem p 3) (p + 3)
      omega, true, (pixelRunEnd mem limit (window mem p 3) (p + 3)).2⟩
  else
    ⟨(pixelLiteralEnd mem limit (window mem (p + 3) 3) (p + 6) (p + 6)).1, by
      have := le_pixelLiteralEnd mem limit (window mem (p + 3) 3) (p + 6) (p + 6)
      omega, false, (pixelLiteralEnd mem limit (window mem (p + 3) 3) (p + 6) (p + 6)).2⟩

def twentyFourCodec (mem : ℕ → UInt8) (aSizeInBytes : ℕ) : Codec (aSizeInBytes - 3) where
  scan p _ := pixelScan mem aSizeInBytes p
  writeValues p := WriteCompressedTwentyFourBitValues (mem p) (mem (p + 1)) (mem (p + 2))
  writeData := WriteCompressedTwentyFourBitData mem
  width := 3

def CompressTwentyFourBitData (mem : ℕ → UInt8) (aSizeInBytes : ℕ) : Compression :=
  finish (twentyFourCodec mem aSizeInBytes) aSizeInBytes (destCompressedLimit aSizeInBytes)
    (compressLoop (twentyFourCodec mem aSizeInBytes) (destCompressedLimit aSizeInBytes) 0 [] 0)

/-! ### Twelve bits -/

/-- The run length `l` is stored as `l - 1` in the top four bits of the word. -/
def WriteCompressedTwelveBitData (aData aLength : ℕ) : Bytes :=
  if 16 < aLength then leBytes 2 (aData % 4096 ||| 0xf000) ++ WriteCompressedTwelveBitData aData (aLength - 16)
  else if 0 < aLength then leBytes 2 (aData % 4096 ||| (aLength - 1) <<< 12)
  else []
termination_by aLength

/-- `do srcePtr++; while (srcePtr < srceLimitPtr && *srcePtr == value);` -/
def twelveRunEnd (mem : ℕ → UInt8) (limit value srcePtr : ℕ) : ℕ :=
  if srcePtr + 2 < limit ∧ word mem (srcePtr + 2) = value then twelveRunEnd mem limit value (srcePtr + 2)
  else srcePtr + 2
termination_by limit - srcePtr

theorem twelveRunEnd_search (limit value : ℕ) :
    Search 2 2 limit (word mem · = value) (twelveRunEnd mem limit value) where
  turn p := by
    rw [twelveRunEnd]
    split
    · next h => exact .inl ⟨h.2, h.1, rfl⟩
    · exact .inr rfl

theorem lt_twelveRunEnd (limit value p : ℕ) : p < twelveRunEnd mem limit value p :=
  lt_of_lt_of_le (by omega) ((twelveRunEnd_search mem limit value).le Nat.two_pos p)

def compressTwelveLoop (mem : ℕ → UInt8) (limit srcePtr : ℕ) (dest : Bytes) : Bytes :=
  if srcePtr < limit then
    let stop := twelveRunEnd mem limit (word mem srcePtr) srcePtr
    compressTwelveLoop mem limit stop
      (dest ++ WriteCompressedTwelveBitData (word mem srcePtr) ((stop - srcePtr) / 2))
  else dest
termination_by limit - srcePtr
decreasing_by
  have := lt_twelveRunEnd mem limit (word mem srcePtr) srcePtr
  omega

def CompressTwelveBitData (mem : ℕ → UInt8) (aSizeInBytes : ℕ) : Compression :=
  let limit := aSizeInBytes / 2 * 2
  ⟨.NoError, limit, compressTwelveLoop mem limit 0 [], limit⟩

/-- The choice of `CompressBitmap` among the four. -/
def compressData (iCompression : TBitmapfileCompression) (mem : ℕ → UInt8) (originalsize : ℕ) : Compression :=
  match iCompression with
  | .EByteRLECompression => CompressByteData mem originalsize
  | .ETwelveBitRLECompression => CompressTwelveBitData mem originalsize
  | .ESixteenBitRLECompression => CompressSixteenBitData mem originalsize
  | .ETwentyFourBitRLECompression => CompressTwentyFourBitData mem originalsize
  | .ENoBitmapCompression => ⟨.NoCompression, 0, [], 0⟩

end GnuPoc.Bmconv
