import GnuPoc.Deflate.DeflateOutput

/-!
# GnuPoc.Deflate.Inflater — the inflation (`inflate.cpp`)

The output is a circular buffer that is handed out when it is full.  A match that does not fit is kept, and its rest is
copied first when the buffer is filled again.  The input is the bits that are left of it; pointers into the buffer are
positions, and `end` is the size of the buffer.
-/

namespace GnuPoc.Deflate

open GnuPoc.Lib

/-! ### Codes and extra bits -/

/-- `TBitInput::ReadL` on the bits that are left. -/
def readBits (aSize : ℕ) (bits : List Bool) : Except Fault (ℕ × List Bool) :=
  if aSize ≤ bits.length then .ok (ofBits (bits.take aSize), bits.drop aSize) else .error .underflow

/-- What a code of either tree says. -/
inductive Item
  | literal (byte : UInt8)
  | eos
  | length (aLength : ℕ)
  | distance (aDistance : ℕ)
  deriving DecidableEq, Repr

/-- The number of a code with its extra bits. -/
def withExtra (code : ℕ) (bits : List Bool) : Except Fault (ℕ × List Bool) :=
  if 8 ≤ code then do
    let xtra := (code >>> 2) - 1
    let (extra, bits) ← readBits xtra bits
    pure ((code - xtra <<< 2) <<< xtra ||| extra, bits)
  else pure (code, bits)

/-- The turn of the loop up to where it knows what the code says. -/
def readItem (tree : Words) (bits : List Bool) : Except Fault (Item × List Bool) := do
  let (huff, bits) ← HuffmanL tree bits
  let val := asTInt (huff - UInt32.ofNat ELiterals)
  if val < 0 then pure (.literal (huff - UInt32.ofNat ELiterals).toUInt8, bits)
  else if val = (EEos - ELiterals : ℕ) then pure (.eos, bits)
  else
    let (code, bits) ← withExtra (val.toNat % 256) bits
    if val < (KDeflateDistCodeBase - ELiterals : ℕ) then pure (.length (code + KDeflateMinLength), bits)
    else pure (.distance (code + 1), bits)

theorem withExtra_length_le {code n : ℕ} {bits rest : List Bool} (h : withExtra code bits = .ok (n, rest)) :
    rest.length ≤ bits.length := by
  rw [withExtra] at h
  split at h
  · obtain ⟨⟨extra, rest'⟩, hread, h⟩ := bind_eq_ok.mp h
    obtain ⟨-, rfl⟩ := Prod.mk.inj (Except.ok.inj h)
    rw [readBits] at hread
    split at hread
    · obtain ⟨-, rfl⟩ := Prod.mk.inj (Except.ok.inj hread)
      rw [List.length_drop]
      omega
    · cases hread
  · obtain ⟨-, rfl⟩ := Prod.mk.inj (Except.ok.inj h)
    exact le_rfl

theorem readItem_length_lt {tree : Words} {bits rest : List Bool} {item : Item}
    (h : readItem tree bits = .ok (item, rest)) : rest.length < bits.length := by
  obtain ⟨⟨huff, rest'⟩, hread, h⟩ := bind_eq_ok.mp h
  have hlt := huffmanLoop_length_lt hread
  dsimp only at h
  split at h
  · obtain ⟨-, rfl⟩ := Prod.mk.inj (Except.ok.inj h)
    exact hlt
  · split at h
    · obtain ⟨-, rfl⟩ := Prod.mk.inj (Except.ok.inj h)
      exact hlt
    · obtain ⟨⟨code, rest''⟩, hextra, h⟩ := bind_eq_ok.mp h
      have hle := withExtra_length_le hextra
      dsimp only at h
      split at h
      · obtain ⟨-, rfl⟩ := Prod.mk.inj (Except.ok.inj h)
        exact lt_of_le_of_lt hle hlt
      · obtain ⟨-, rfl⟩ := Prod.mk.inj (Except.ok.inj h)
        exact lt_of_le_of_lt hle hlt

/-! ### The buffer -/

/-- The circular buffer, with what is left of a match and where that is read. -/
structure History where
  iOut : List UInt8
  iRptr : ℕ
  iLen : ℤ
  deriving Repr

/-- The copy of `tfr` bytes, which is at least one. -/
def historyLoop : (tfr : ℕ) → (iFrom out : ℕ) → List UInt8 → Except Fault (ℕ × ℕ × List UInt8)
  | 0, _, _, _ => .error .undefined
  | tfr + 1, iFrom, out, iOut => do
    let byte ← elementAt iOut iFrom
    let iOut ← modifyAt iOut out fun _ => byte
    let iFrom := if iFrom + 1 = KDeflateMaxDistance then iFrom + 1 - KDeflateMaxDistance else iFrom + 1
    if tfr ≠ 0 then historyLoop tfr iFrom (out + 1) iOut else pure (iFrom, out + 1, iOut)

/-- The code at `useHistory`. -/
def useHistory (h : History) (out : ℕ) : Except Fault (History × ℕ) := do
  let tfr := min (KDeflateMaxDistance - out) h.iLen.toNat
  let (iFrom, out, iOut) ← historyLoop tfr h.iRptr out h.iOut
  pure (⟨iOut, iFrom, h.iLen - tfr⟩, out)

/-- Where a match is read that begins at `out`. -/
def pointerBack (out aDistance : ℕ) : ℕ :=
  let iRptr := (out : ℤ) - aDistance
  (if iRptr + KDeflateMaxDistance < KDeflateMaxDistance then iRptr + KDeflateMaxDistance else iRptr).toNat

/-- `while (out<end)`; `tree` is the one of the next code. -/
def inflateLoop (iLitLen iDistance tree : Words) (bits : List Bool) (h : History) (out : ℕ) :
    Except Fault (List Bool × History × ℕ) :=
  if out < KDeflateMaxDistance then
    match _hread : readItem tree bits with
    | .error fault => .error fault
    | .ok (.literal byte, rest) =>
      match modifyAt h.iOut out fun _ => byte with
      | .error fault => .error fault
      | .ok iOut => inflateLoop iLitLen iDistance tree rest { h with iOut := iOut } (out + 1)
    | .ok (.eos, rest) => .ok (rest, { h with iLen := -1 }, out)
    | .ok (.length aLength, rest) => inflateLoop iLitLen iDistance iDistance rest { h with iLen := aLength } out
    | .ok (.distance aDistance, rest) =>
      match useHistory { h with iRptr := pointerBack out aDistance } out with
      | .error fault => .error fault
      | .ok (h, out) => inflateLoop iLitLen iDistance iLitLen rest h out
  else .ok (bits, h, out)
termination_by bits.length
decreasing_by
  all_goals exact readItem_length_lt _hread

/-! ### `CInflater` -/

structure CInflater where
  iBits : List Bool
  iLitLen : Words
  iDistance : Words
  history : History
  iAvail : ℕ
  iLimit : ℕ
  deriving Repr

namespace CInflater

/-- `InitL`: the two trees, and the bits behind the table.  Entries beyond the `TEncoding` are written elsewhere. -/
def InitL (bits : List Bool) : Except Stop (Words × Words × List Bool) :=
  match InternalizeL bits KDeflationCodes with
  | (_, .panics) => Panic .EHuffmanCorruptFile
  | (_, .leaves fault) => .error (.leaves fault)
  | (written, .finishes bits) => do
    if KDeflationCodes < written.length then .error (.leaves .undefined)
    else
      let iLitLen := written.take ELitLens
      let iDistance := written.drop ELitLens
      if ¬ IsValid iLitLen ∨ ¬ IsValid iDistance then Panic .EHuffmanCorruptFile
      else
        let iLitLen ← Decoding iLitLen 0
        let iDistance ← Decoding iDistance (UInt32.ofNat KDeflateDistCodeBase)
        pure (iLitLen, iDistance, bits)

/-- What `ConstructL` leaves; `memory` is what the new buffer holds. -/
def start (memory : ℕ → UInt8) (iLitLen iDistance : Words) (iBits : List Bool) : CInflater :=
  ⟨iBits, iLitLen, iDistance, ⟨(List.range KDeflateMaxDistance).map memory, 0, 0⟩, 0, 0⟩

/-- `NewLC` with `ConstructL`. -/
def NewLC (memory : ℕ → UInt8) (aInput : List Bool) : Except Stop CInflater := do
  let (iLitLen, iDistance, bits) ← InitL aInput
  pure (start memory iLitLen iDistance bits)

/-- `InflateL`: how many bytes there are at the start of the buffer. -/
def InflateL (c : CInflater) : Except Fault (ℕ × CInflater) := do
  if c.history.iLen < 0 then pure (0, c)
  else
    let (h, out) ← if 0 < c.history.iLen then useHistory c.history 0 else pure (c.history, 0)
    let (bits, h, out) ← inflateLoop c.iLitLen c.iDistance c.iLitLen c.iBits h out
    pure (out, { c with iBits := bits, history := h })

/-- The loop of `ReadL`: the bytes that it copies and the number that it returns.  Without a buffer nothing is copied. -/
def readLoop (aBuffer : Bool) (aLength tfr : ℕ) (c : CInflater) : Except Fault (List UInt8 × ℕ × CInflater) :=
  let len := min aLength (c.iLimit - c.iAvail)
  let copied := if aBuffer then (c.history.iOut.drop c.iAvail).take len else []
  if aLength - len = 0 then .ok (copied, tfr + len, { c with iAvail := c.iAvail + len })
  else
    match InflateL { c with iAvail := c.iAvail + len } with
    | .error fault => .error fault
    | .ok (0, c) => .ok (copied, tfr + len, c)
    | .ok (n + 1, c) => do
      let (more, tfr, c) ← readLoop aBuffer (aLength - len) (tfr + len) { c with iAvail := 0, iLimit := n + 1 }
      pure (copied ++ more, tfr, c)
termination_by 2 * aLength + if c.iLimit ≤ c.iAvail then 1 else 0
decreasing_by
  split <;> split <;> omega

def ReadL (aBuffer : Bool) (aLength : ℕ) (c : CInflater) : Except Fault (List UInt8 × ℕ × CInflater) :=
  readLoop aBuffer aLength 0 c

def SkipL (aLength : ℕ) (c : CInflater) : Except Fault (List UInt8 × ℕ × CInflater) := ReadL false aLength c

end CInflater

end GnuPoc.Deflate
