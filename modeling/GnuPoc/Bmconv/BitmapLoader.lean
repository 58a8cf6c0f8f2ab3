import GnuPoc.Lib.LittleEndian
import GnuPoc.Lib.Outcome
import Mathlib.Tactic.Linarith

/-!
# GnuPoc.Bmconv.BitmapLoader — reading a bitmap (`bmtopbm.cpp`)

`DoLoad` sizes the palette and the bit data by the header and by the size of the file that the file states; a pixel
is found by the width and the height.  Nothing ties the two together.  A buffer is the list of its bytes, an
access outside it is undefined, and so is an `int` that overflows; `long` has 64 bits.
-/

namespace GnuPoc.Bmconv

open Lib

/-! ### Loading -/

structure TBitmapInfoHeader where
  biWidth : ℤ
  biHeight : ℤ
  biBitCount : ℕ
  biCompression : ℕ
  biClrUsed : ℕ
  deriving DecidableEq

structure TRgb where
  iRed : UInt8
  iGreen : UInt8
  iBlue : UInt8
  deriving DecidableEq

structure TRgbQuad where
  iBlue : UInt8
  iGreen : UInt8
  iRed : UInt8
  iReserved : UInt8
  deriving DecidableEq

/-- A file that is not accepted: what `DoLoad` returns, an allocation that throws, or a shift that is too far. -/
inductive NotLoaded
  | SourceFile
  | UnknownCompression
  | badAlloc
  | undefined
  deriving DecidableEq

/-- `iBmpHeader`, the palette if there is one, and the bit data. -/
structure Loaded where
  iBmpHeader : TBitmapInfoHeader
  iBmpColors : Option (List TRgbQuad)
  iBmpBits : Bytes
  deriving DecidableEq

/-- The value of an `unsigned int` in an `int`. -/
def toInt32 (n : ℕ) : ℤ := (n : ℤ).bmod 4294967296

def field (b : Bytes) (offset size : ℕ) : ℕ := ofLE ((b.drop offset).take size)

/-- The fields that are read of the 40 bytes of the header. -/
def infoHeader (info : Bytes) : TBitmapInfoHeader where
  biWidth := toInt32 (field info 4 4)
  biHeight := toInt32 (field info 8 4)
  biBitCount := field info 14 2
  biCompression := field info 16 4
  biClrUsed := field info 32 4

/-- `iNumBmpColors`. -/
def numBmpColors (h : TBitmapInfoHeader) : Except NotLoaded ℤ :=
  if h.biClrUsed = 0 then
    if h.biBitCount = 24 then .ok 0
    else if 31 ≤ h.biBitCount then .error .undefined
    else .ok ((1 <<< h.biBitCount : ℕ) : ℤ)
  else .ok (toInt32 h.biClrUsed)

def rgbQuads : ℕ → Bytes → List TRgbQuad
  | 0, _ => []
  | n + 1, b => ⟨b.getD 0 0, b.getD 1 0, b.getD 2 0, b.getD 3 0⟩ :: rgbQuads n (b.drop 4)

/-- The allocations and reads behind the headers, for `iNumBmpColors` and `size` without the palette.  A negative
number of colours reads nothing where a large number of bytes is wanted. -/
def readColorsAndBits (h : TBitmapInfoHeader) (iNumBmpColors : ℤ) (size : ℕ) (rest : Bytes) :
    Except NotLoaded Loaded :=
  if 9223372036854775808 ≤ size then .error .badAlloc
  else if iNumBmpColors < 0 then .error .SourceFile
  else
    let paletteSize := 4 * iNumBmpColors.toNat
    if rest.length < paletteSize then .error .SourceFile
    else if rest.length - paletteSize < size then .error .SourceFile
    else .ok ⟨h, if 0 < iNumBmpColors then some (rgbQuads iNumBmpColors.toNat rest) else none,
      (rest.drop paletteSize).take size⟩

/-- `size` in 64 bits. -/
def bitsSize (bfSize : ℕ) (iNumBmpColors : ℤ) : ℕ := ((bfSize - 54 - 4 * iNumBmpColors : ℤ) % 18446744073709551616).toNat

def DoLoad (file : Bytes) : Except NotLoaded Loaded :=
  let bfSize := field file 2 4
  let h := infoHeader (file.drop 14)
  if file.length < 14 then .error .SourceFile
  else if file.length < 54 then .error .SourceFile
  else if h.biCompression ≠ 0 then .error .UnknownCompression
  else do
    let iNumBmpColors ← numBmpColors h
    if 256 < iNumBmpColors then .error .SourceFile
    else readColorsAndBits h iNumBmpColors (bitsSize bfSize iNumBmpColors) (file.drop 54)

/-- `LoadBitmap` up to the conversion: the signature `BM`, and the file. -/
def LoadBitmap (file : Bytes) : Except NotLoaded Loaded :=
  if file.take 2 = [66, 77] then DoLoad file else .error .SourceFile

/-! ### A pixel -/

/-- The value of an `int` expression. -/
def int (z : ℤ) : Outcome ℤ := if -2147483648 ≤ z ∧ z ≤ 2147483647 then .ok z else .error .undefined

namespace Loaded

/-- `n` bytes of the bit data. -/
def bitsAt (l : Loaded) (i : ℤ) (n : ℕ) : Outcome Bytes :=
  if 0 ≤ i ∧ i + n ≤ l.iBmpBits.length then .ok ((l.iBmpBits.drop i.toNat).take n) else .error .undefined

/-- The colour of a palette entry, or the one for a bitmap without a palette. -/
def colour (l : Loaded) (col : ℕ) (plain : TRgb) : Outcome TRgb :=
  match l.iBmpColors with
  | none => .ok plain
  | some colors =>
    match colors[col]? with
    | none => .error .undefined
    | some rgbq => .ok ⟨rgbq.iRed, rgbq.iGreen, rgbq.iBlue⟩

/-- The switch of `GetBmpPixel`. -/
def pixel (l : Loaded) (aXCoord aYCoord : ℤ) : Outcome TRgb :=
  let biWidth := l.iBmpHeader.biWidth
  let fromBottom := l.iBmpHeader.biHeight - aYCoord - 1
  match l.iBmpHeader.biBitCount with
  | 1 => do
    let width ← int (biWidth + 31)
    let bits ← l.bitsAt (fromBottom * (width / 32 * 4) + aXCoord / 8) 1
    let col := (ofLE bits >>> (7 - aXCoord % 8).toNat) % 2
    l.colour col (if col = 0 then ⟨0, 0, 0⟩ else ⟨255, 255, 255⟩)
  | 4 => do
    let width ← int (biWidth + 7)
    let bits ← l.bitsAt (fromBottom * (width / 8 * 4) + aXCoord / 2) 1
    let col := if aXCoord % 2 = 0 then ofLE bits / 16 else ofLE bits % 16
    let gray := UInt8.ofNat (col * 17)
    l.colour col ⟨gray, gray, gray⟩
  | 8 => do
    let width ← int (biWidth + 3)
    let bits ← l.bitsAt (fromBottom * (width / 4 * 4) + aXCoord) 1
    let gray := UInt8.ofNat (ofLE bits)
    l.colour (ofLE bits) ⟨gray, gray, gray⟩
  | 16 => do
    let width ← int (biWidth + 1)
    let width ← int (width / 2 * 2 * 2)
    let bits ← l.bitsAt (fromBottom * width + aXCoord * 2) 2
    let word := ofLE bits
    .ok ⟨UInt8.ofNat ((word &&& 0x7c) >>> 10), UInt8.ofNat ((word &&& 0x3e) >>> 5), UInt8.ofNat (word &&& 0x1f)⟩
  | 24 => do
    let width ← int (3 * biWidth)
    let width ← int (width + 3)
    let bits ← l.bitsAt (fromBottom * (width / 4 * 4) + (aXCoord + aXCoord * 2)) 3
    .ok ⟨bits.getD 2 0, bits.getD 1 0, bits.getD 0 0⟩
  | 32 => do
    let width ← int (biWidth * 4)
    -- an `unsigned long` is read
    let bits ← l.bitsAt (fromBottom * width + aXCoord * 4) 8
    .ok ⟨bits.getD 2 0, bits.getD 1 0, bits.getD 0 0⟩
  | _ => .ok ⟨255, 255, 255⟩

/-- Two grays that are taken for their neighbours. -/
def grayed (color : TRgb) : TRgb :=
  if color = ⟨128, 128, 128⟩ then ⟨127, 127, 127⟩
  else if color = ⟨192, 192, 192⟩ then ⟨187, 187, 187⟩
  else color

def GetBmpPixel (l : Loaded) (aXCoord aYCoord : ℤ) : Outcome TRgb := do
  let color ← l.pixel aXCoord aYCoord
  .ok (grayed color)

/-! ### What a pixel needs -/

/-- The `int` expression for the width of a row has no overflow. -/
def WidthFits (l : Loaded) : Prop :=
  match l.iBmpHeader.biBitCount with
  | 1 => l.iBmpHeader.biWidth + 31 ≤ 2147483647
  | 4 => l.iBmpHeader.biWidth + 7 ≤ 2147483647
  | 8 => l.iBmpHeader.biWidth + 3 ≤ 2147483647
  | _ => 3 * l.iBmpHeader.biWidth + 3 ≤ 2147483647

/-- The bytes of a row, which are words of four. -/
def rowBytes (l : Loaded) : ℤ :=
  match l.iBmpHeader.biBitCount with
  | 1 => (l.iBmpHeader.biWidth + 31) / 32 * 4
  | 4 => (l.iBmpHeader.biWidth + 7) / 8 * 4
  | 8 => (l.iBmpHeader.biWidth + 3) / 4 * 4
  | _ => (3 * l.iBmpHeader.biWidth + 3) / 4 * 4

/-- The first byte of a pixel in its row. -/
def byteInRow (l : Loaded) (x : ℤ) : ℤ :=
  match l.iBmpHeader.biBitCount with
  | 1 => x / 8
  | 4 => x / 2
  | 8 => x
  | _ => x + x * 2

def pixelBytes (l : Loaded) : ℕ := if l.iBmpHeader.biBitCount = 24 then 3 else 1

/-- The first byte of a pixel. -/
def pixelIndex (l : Loaded) (x y : ℤ) : ℤ := (l.iBmpHeader.biHeight - y - 1) * l.rowBytes + l.byteInRow x

/-- The palette entry that a pixel selects. -/
def entry (l : Loaded) (x y : ℤ) : ℕ :=
  let byte := ofLE ((l.iBmpBits.drop (l.pixelIndex x y).toNat).take 1)
  match l.iBmpHeader.biBitCount with
  | 1 => (byte >>> (7 - x % 8).toNat) % 2
  | 4 => if x % 2 = 0 then byte / 16 else byte % 16
  | _ => byte

def HasEntry (l : Loaded) (x y : ℤ) : Prop :=
  l.iBmpHeader.biBitCount ≠ 24 → ∀ colors ∈ l.iBmpColors, l.entry x y < colors.length

/-- One of the depths that have rows of whole words and a palette or three bytes. -/
def Common (l : Loaded) : Prop :=
  l.iBmpHeader.biBitCount = 1 ∨ l.iBmpHeader.biBitCount = 4 ∨ l.iBmpHeader.biBitCount = 8 ∨
    l.iBmpHeader.biBitCount = 24

theorem int_eq_ok {z w : ℤ} : int z = .ok w ↔ z = w ∧ -2147483648 ≤ z ∧ z ≤ 2147483647 := by
  unfold int
  split
  · next h => simp [h]
  · next h => simp [h]

variable {l : Loaded}

theorem bitsAt_eq_ok {i : ℤ} {n : ℕ} {b : Bytes} : l.bitsAt i n = .ok b ↔
    (l.iBmpBits.drop i.toNat).take n = b ∧ 0 ≤ i ∧ i + n ≤ l.iBmpBits.length := by
  unfold bitsAt
  split
  · next h => simp [h]
  · next h => simp [h]

theorem colour_ok_iff {col : ℕ} (plain : TRgb) :
    (∃ c, l.colour col plain = .ok c) ↔ ∀ colors ∈ l.iBmpColors, col < colors.length := by
  unfold colour
  rcases l.iBmpColors with - | colors
  · simp
  · rcases h : colors[col]? with - | rgbq
    · have hle := List.getElem?_eq_none_iff.mp h
      simpa [h] using hle
    · simpa [h] using (List.getElem?_eq_some_iff.mp h).1

theorem getBmpPixel_ok_iff {x y : ℤ} : (∃ c, l.GetBmpPixel x y = .ok c) ↔ ∃ c, l.pixel x y = .ok c := by
  unfold GetBmpPixel
  rcases l.pixel x y with e | c
  · simp
  · simp

theorem palette_ok_iff {w i : ℤ} {f : ℤ → ℤ} {col : Bytes → ℕ} {plain : Bytes → TRgb} (hw : -2147483648 ≤ w) :
    (∃ c, (do
      let width ← int w
      let bits ← l.bitsAt (f width + i) 1
      l.colour (col bits) (plain bits) : Outcome TRgb) = .ok c) ↔
    w ≤ 2147483647 ∧ 0 ≤ f w + i ∧ f w + i + 1 ≤ l.iBmpBits.length ∧
      ∀ colors ∈ l.iBmpColors, col ((l.iBmpBits.drop (f w + i).toNat).take 1) < colors.length := by
  simp only [bind_eq_ok, int_eq_ok, bitsAt_eq_ok]
  constructor
  · rintro ⟨c, _, ⟨rfl, -, hle⟩, _, ⟨rfl, h0, h1⟩, hc⟩
    exact ⟨hle, h0, h1, (colour_ok_iff _).mp ⟨c, hc⟩⟩
  · rintro ⟨hle, h0, h1, hcolors⟩
    obtain ⟨c, hc⟩ := (colour_ok_iff (plain ((l.iBmpBits.drop (f w + i).toNat).take 1))).mpr hcolors
    exact ⟨c, w, ⟨rfl, hw, hle⟩, _, ⟨rfl, h0, h1⟩, hc⟩

/-- A pixel is read where its row has a width, its bytes are in the buffer and the palette has its entry. -/
theorem pixel_ok_iff {x y : ℤ} (hl : l.Common) (hwidth : 0 ≤ l.iBmpHeader.biWidth) :
    (∃ c, l.GetBmpPixel x y = .ok c) ↔
      l.WidthFits ∧ 0 ≤ l.pixelIndex x y ∧ l.pixelIndex x y + l.pixelBytes ≤ l.iBmpBits.length ∧ l.HasEntry x y := by
  rw [getBmpPixel_ok_iff]
  unfold pixel WidthFits HasEntry entry pixelIndex rowBytes byteInRow pixelBytes
  rcases hl with h | h | h | h
  · simp only [h]
    rw [palette_ok_iff (f := fun width => (l.iBmpHeader.biHeight - y - 1) * (width / 32 * 4)) (by omega)]
    simp
  · simp only [h]
    rw [palette_ok_iff (f := fun width => (l.iBmpHeader.biHeight - y - 1) * (width / 8 * 4)) (by omega)]
    simp
  · simp only [h]
    rw [palette_ok_iff (f := fun width => (l.iBmpHeader.biHeight - y - 1) * (width / 4 * 4)) (by omega)]
    simp
  · simp only [h, bind_eq_ok, int_eq_ok, bitsAt_eq_ok]
    constructor
    · rintro ⟨c, _, ⟨rfl, -, hle⟩, _, ⟨rfl, -, hle'⟩, _, ⟨rfl, h0, h1⟩, -⟩
      exact ⟨hle', h0, h1, fun hne => absurd rfl hne⟩
    · rintro ⟨hle, h0, h1, -⟩
      exact ⟨_, _, ⟨rfl, by omega, by omega⟩, _, ⟨rfl, by omega, hle⟩, _, ⟨rfl, h0, h1⟩, rfl⟩

/-! ### All pixels -/

/-- The pixels of the bitmap; there are none where a side is not positive. -/
def IsPixel (l : Loaded) (x y : ℤ) : Prop :=
  0 ≤ x ∧ x < l.iBmpHeader.biWidth ∧ 0 ≤ y ∧ y < l.iBmpHeader.biHeight

theorem rowBytes_nonneg (h : 0 ≤ l.iBmpHeader.biWidth) : 0 ≤ l.rowBytes := by
  unfold rowBytes
  split
  all_goals omega

theorem byteInRow_nonneg {x : ℤ} (h : 0 ≤ x) : 0 ≤ l.byteInRow x := by
  unfold byteInRow
  split
  all_goals omega

theorem byteInRow_mono {x x' : ℤ} (h : x ≤ x') : l.byteInRow x ≤ l.byteInRow x' := by
  unfold byteInRow
  split
  all_goals omega

theorem pixelIndex_nonneg {x y : ℤ} (h : l.IsPixel x y) : 0 ≤ l.pixelIndex x y := by
  obtain ⟨hx, hwidth, hy, hheight⟩ := h
  have hrow : 0 ≤ l.rowBytes := rowBytes_nonneg (by omega)
  exact Int.add_nonneg (Int.mul_nonneg (by omega) hrow) (byteInRow_nonneg hx)

/-- The last pixel of the first row lies last in the buffer, which begins with the last row. -/
theorem pixelIndex_le {x y : ℤ} (h : l.IsPixel x y) :
    l.pixelIndex x y ≤ l.pixelIndex (l.iBmpHeader.biWidth - 1) 0 := by
  obtain ⟨hx, hwidth, hy, hheight⟩ := h
  have hrow : 0 ≤ l.rowBytes := rowBytes_nonneg (by omega)
  have hrows := Int.mul_le_mul_of_nonneg_right
    (show l.iBmpHeader.biHeight - y - 1 ≤ l.iBmpHeader.biHeight - 0 - 1 by omega) hrow
  exact Int.add_le_add hrows (byteInRow_mono (by omega))

/-- A pixel of `n` bits selects one of `2 ^ n` entries. -/
theorem entry_lt (hl : l.Common) (h : l.iBmpHeader.biBitCount ≠ 24) (x y : ℤ) :
    l.entry x y < 2 ^ l.iBmpHeader.biBitCount := by
  have hbyte := ofLE_take_lt 1 (l.iBmpBits.drop (l.pixelIndex x y).toNat)
  unfold entry
  rcases hl with hbits | hbits | hbits | hbits
  · simp only [hbits]
    omega
  · simp only [hbits]
    split <;> omega
  · simp only [hbits]
    omega
  · exact absurd hbits h

/-- A palette with fewer entries than the depth can select has those that the pixels select. -/
def PaletteSuffices (l : Loaded) : Prop :=
  l.iBmpHeader.biBitCount ≠ 24 → ∀ colors ∈ l.iBmpColors, colors.length < 2 ^ l.iBmpHeader.biBitCount →
    ∀ x y, l.IsPixel x y → l.entry x y < colors.length

/-- There is no pixel, or a row has a width in `int`, the last pixel is in the bit data, and the palette
suffices. -/
def Covered (l : Loaded) : Prop :=
  l.iBmpHeader.biWidth ≤ 0 ∨ l.iBmpHeader.biHeight ≤ 0 ∨
    l.WidthFits ∧ l.pixelIndex (l.iBmpHeader.biWidth - 1) 0 + l.pixelBytes ≤ l.iBmpBits.length ∧ l.PaletteSuffices

theorem pixels_ok_iff (hl : l.Common) : (∀ x y, l.IsPixel x y → ∃ c, l.GetBmpPixel x y = .ok c) ↔ l.Covered := by
  constructor
  · intro h
    by_cases hwidth : l.iBmpHeader.biWidth ≤ 0
    · exact .inl hwidth
    by_cases hheight : l.iBmpHeader.biHeight ≤ 0
    · exact .inr (.inl hheight)
    have hpixel : l.IsPixel (l.iBmpHeader.biWidth - 1) 0 := ⟨by omega, by omega, le_rfl, by omega⟩
    obtain ⟨hfits, -, hlast, -⟩ := (pixel_ok_iff hl (by omega)).mp (h _ _ hpixel)
    refine .inr (.inr ⟨hfits, hlast, fun hdepth colors hcolors _ x y hxy => ?_⟩)
    exact ((pixel_ok_iff hl (by omega)).mp (h x y hxy)).2.2.2 hdepth colors hcolors
  · intro hcovered x y hxy
    have hxy' := hxy
    obtain ⟨hx, hwidth, hy, hheight⟩ := hxy'
    rcases hcovered with hnone | hnone | ⟨hfits, hlast, hpalette⟩
    · omega
    · omega
    have hle := pixelIndex_le hxy
    refine (pixel_ok_iff hl (by omega)).mpr ⟨hfits, pixelIndex_nonneg hxy, by omega, fun hdepth colors hcolors => ?_⟩
    by_cases hshort : colors.length < 2 ^ l.iBmpHeader.biBitCount
    · exact hpalette hdepth colors hcolors hshort x y hxy
    · exact (entry_lt hl hdepth x y).trans_le (not_lt.mp hshort)

/-- The number of colours that are loaded. -/
def colours (l : Loaded) : ℕ := (l.iBmpColors.map List.length).getD 0

end Loaded

/-! ### Accepted files -/

theorem length_rgbQuads (n : ℕ) : ∀ b, (rgbQuads n b).length = n := by
  induction n with
  | zero => exact fun _ => rfl
  | succ n ih => exact fun b => congrArg Nat.succ (ih _)

/-- The size of the bit data is what the size of the file leaves behind the headers and the palette. -/
theorem doLoad_size {file : Bytes} {l : Loaded} (h : DoLoad file = .ok l) :
    l.iBmpBits.length + 4 * l.colours + 54 = field file 2 4 := by
  unfold DoLoad at h
  simp only [ne_eq, ite_not] at h
  split at h
  · cases h
  split at h
  · cases h
  split at h
  swap
  · cases h
  obtain ⟨n, hn, h⟩ := bind_eq_ok.mp h
  split at h
  · cases h
  next hmany =>
  unfold readColorsAndBits at h
  simp only at h
  by_cases halloc : 9223372036854775808 ≤ bitsSize (field file 2 4) n
  · rw [if_pos halloc] at h
    cases h
  by_cases hneg : n < 0
  · rw [if_neg halloc, if_pos hneg] at h
    cases h
  by_cases hpalette : (file.drop 54).length < 4 * n.toNat
  · rw [if_neg halloc, if_neg hneg, if_pos hpalette] at h
    cases h
  by_cases hbits : (file.drop 54).length - 4 * n.toNat < bitsSize (field file 2 4) n
  · rw [if_neg halloc, if_neg hneg, if_neg hpalette, if_pos hbits] at h
    cases h
  rw [if_neg halloc, if_neg hneg, if_neg hpalette, if_neg hbits] at h
  obtain rfl := Except.ok.inj h
  have hcolours : Loaded.colours ⟨infoHeader (file.drop 14),
      if 0 < n then some (rgbQuads n.toNat (file.drop 54)) else none,
      ((file.drop 54).drop (4 * n.toNat)).take (bitsSize (field file 2 4) n)⟩ = n.toNat := by
    by_cases hpos : 0 < n
    · simp [Loaded.colours, hpos, length_rgbQuads]
    · simp only [Loaded.colours, if_neg hpos]
      exact (Int.toNat_of_nonpos (not_lt.mp hpos)).symm
  rw [hcolours]
  have hstated : field file 2 4 < 4294967296 := ofLE_take_lt 4 _
  rw [List.length_take, List.length_drop, Nat.min_eq_left (not_lt.mp hbits)]
  unfold bitsSize at halloc ⊢
  omega

theorem doLoad_of_loadBitmap {file : Bytes} {l : Loaded} (h : LoadBitmap file = .ok l) : DoLoad file = .ok l := by
  unfold LoadBitmap at h
  split at h
  · exact h
  · cases h

/-- Every pixel of an accepted bitmap with a common depth can be read. -/
def PixelsInside (file : Bytes) : Prop :=
  ∀ l, LoadBitmap file = .ok l → l.Common → ∀ x y, l.IsPixel x y → ∃ c, l.GetBmpPixel x y = .ok c

/-- The stated size of the file holds the headers, the palette and the pixels up to the last one, and the palette
suffices. -/
def PixelsCovered (file : Bytes) : Prop :=
  ∀ l, LoadBitmap file = .ok l → l.Common → l.iBmpHeader.biWidth ≤ 0 ∨ l.iBmpHeader.biHeight ≤ 0 ∨
    l.WidthFits ∧
    54 + 4 * l.colours + l.pixelIndex (l.iBmpHeader.biWidth - 1) 0 + l.pixelBytes ≤ field file 2 4 ∧
    l.PaletteSuffices

/-- **Every pixel access stays inside the buffers exactly when the file's size covers the pixels.** -/
theorem LoadBitmap_pixelsInside (file : Bytes) : PixelsInside file ↔ PixelsCovered file := by
  refine forall_congr' fun l => forall_congr' fun hload => forall_congr' fun hl => ?_
  have hsize := doLoad_size (doLoad_of_loadBitmap hload)
  have hlast : 54 + 4 * (l.colours : ℤ) + l.pixelIndex (l.iBmpHeader.biWidth - 1) 0 + l.pixelBytes ≤ field file 2 4 ↔
      l.pixelIndex (l.iBmpHeader.biWidth - 1) 0 + l.pixelBytes ≤ l.iBmpBits.length := by omega
  rw [hlast]
  exact Loaded.pixels_ok_iff hl

/-- A bitmap of one pixel of 24 bits in a file of 54 bytes, which are the headers. -/
def headersOnly : Bytes :=
  [66, 77, 54, 0, 0, 0, 0, 0, 0, 0, 54, 0, 0, 0,
   40, 0, 0, 0, 1, 0, 0, 0, 1, 0, 0, 0, 1, 0, 24, 0, 0, 0, 0, 0, 0, 0, 0, 0,
   0, 0, 0, 0, 0, 0, 0, 0, 0, 0, 0, 0, 0, 0, 0, 0]

/-- The one pixel of a file that is only headers cannot be read. -/
theorem headersOnly_outside : ¬PixelsInside headersOnly := by
  intro h
  have hload : LoadBitmap headersOnly = .ok ⟨⟨1, 1, 24, 0, 0⟩, none, []⟩ := by decide +kernel
  obtain ⟨c, hc⟩ := h _ hload (.inr (.inr (.inr rfl))) 0 0 ⟨le_rfl, Int.one_pos, le_rfl, Int.one_pos⟩
  cases hc

end GnuPoc.Bmconv
