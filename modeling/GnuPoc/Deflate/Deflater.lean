import GnuPoc.Deflate.Huffman

/-!
# GnuPoc.Deflate.Deflater — the search for matches (`deflate.cpp`)

The buffer `[aBase,aEnd)` is a list of bytes, and a pointer into it is a position of the list.  Every byte is read through
`elementAt`, which fails outside of the buffer.  The codes of a match are left to `SegmentL`, and those of a byte to
`LitLenL`: what `DoDeflateL` hands to them is listed.
-/

namespace GnuPoc.Deflate

def KDeflateMinLength : ℕ := 3
def KDeflateMaxLength : ℕ := 258
def KDeflateMaxDistance : ℕ := 4096
def KDeflateHashMultiplier : UInt32 := 0xAC4B9B19
def KDeflateHashShift : UInt32 := 24

/-- A difference of two `TInt`s, as long as it is one. -/
def differenceTInt (a b : ℤ) : Except Fault ℤ :=
  if a - b < 0x80000000 ∧ -0x80000000 ≤ a - b then .ok (a - b) else .error .undefined

/-! ### `HDeflateHash` -/

/-- The last position of each hash value, and how far back the one before it is; an offset that has not been written
is `none`. -/
structure HDeflateHash where
  iHash : List ℤ
  iOffset : List (Option ℕ)
  deriving Repr

namespace HDeflateHash

def NewLC (aLinks : ℕ) : HDeflateHash where
  iHash := List.replicate 256 (-(KDeflateMaxDistance : ℤ) - 1)
  iOffset := List.replicate (min aLinks KDeflateMaxDistance) none

def Hash (buffer : List UInt8) (aPtr : ℤ) : Except Fault ℕ := do
  let p0 ← elementAt buffer aPtr
  let p1 ← elementAt buffer (aPtr + 1)
  let p2 ← elementAt buffer (aPtr + 2)
  let x := p0.toUInt32 ||| p1.toUInt32 <<< 8 ||| p2.toUInt32 <<< 16
  pure ((x * KDeflateHashMultiplier) >>> KDeflateHashShift).toNat

/-- `First`; `aPtr` is the position `aPos` in all calls. -/
def First (buffer : List UInt8) (hash : HDeflateHash) (aPos : ℕ) : Except Fault (ℤ × HDeflateHash) := do
  let h ← Hash buffer aPos
  let last ← elementAt hash.iHash h
  let distance ← differenceTInt aPos last
  let offset := min distance (KDeflateMaxDistance <<< 1 : ℕ)
  let iHash ← modifyAt hash.iHash h fun _ => (aPos : ℤ)
  let iOffset ← modifyAt hash.iOffset (aPos % KDeflateMaxDistance : ℕ) fun _ => some (offset % 0x10000).toNat
  pure (offset, ⟨iHash, iOffset⟩)

def Next (hash : HDeflateHash) (aPos : ℕ) (aOffset : ℤ) : Except Fault ℤ := do
  match ← elementAt hash.iOffset ((aPos - aOffset) % KDeflateMaxDistance) with
  | some offset => pure (aOffset + offset)
  | none => .error .undefined

end HDeflateHash

/-! ### `MDeflater::Match` -/

/-- The comparison from `p` and `m` on: whether `m` has come to the end, and where it stands. -/
def compareLoop (buffer : List UInt8) (aEnd : ℕ) (p : ℤ) (m : ℕ) : Except Fault (Bool × ℕ) := do
  let there ← elementAt buffer p
  let here ← elementAt buffer m
  if there ≠ here then pure (false, m + 1)
  else if m + 1 < aEnd then compareLoop buffer aEnd (p + 1) (m + 1)
  else pure (true, m + 1)
termination_by aEnd - m

/-- One turn of the loop: whether it returns, the match and the byte that a better match has to have. -/
def matchTurn (buffer : List UInt8) (aPtr aEnd : ℕ) (offset : ℤ) (found : ℕ) (c : UInt8) :
    Except Fault (Bool × ℕ × UInt8) := do
  let p := (aPtr : ℤ) - offset
  let byte ← elementAt buffer (p + (found >>> 16 : ℕ))
  if byte = c then
    let (ended, m) ← compareLoop buffer aEnd p aPtr
    if ended then pure (true, (m - aPtr) <<< 16 ||| offset.toNat, c)
    else
      let l := m - aPtr - 1
      if found >>> 16 < l then
        let c ← elementAt buffer ((m : ℤ) - 1)
        pure (false, l <<< 16 ||| offset.toNat, c)
      else pure (false, found, c)
  else pure (false, found, c)

/-- The loop over the offsets; it does not end where `turns` are not enough. -/
def matchLoop (buffer : List UInt8) (hash : HDeflateHash) (aPtr aEnd : ℕ) :
    (turns : ℕ) → ℤ → ℕ → UInt8 → Except Fault ℕ
  | 0, _, _, _ => .error .undefined
  | turns + 1, offset, found, c => do
    let (returns, found, c) ← matchTurn buffer aPtr aEnd offset found c
    if returns then pure found
    else
      let offset ← hash.Next aPtr offset
      if offset ≤ KDeflateMaxDistance then matchLoop buffer hash aPtr aEnd turns offset found c
      else pure found

/-- `Match`; `aPtr` is the position `aPos` in all calls. -/
def Match (buffer : List UInt8) (hash : HDeflateHash) (aPos : ℕ) : Except Fault (ℕ × HDeflateHash) := do
  let (offset, hash) ← hash.First buffer aPos
  if KDeflateMaxDistance < offset then pure (0, hash)
  else
    let aEnd := min buffer.length (aPos + KDeflateMaxLength)
    let c ← elementAt buffer aPos
    let found ← matchLoop buffer hash aPos aEnd (KDeflateMaxDistance + 1) offset 0 c
    pure (found, hash)

/-! ### `MDeflater::DoDeflateL` -/

/-- What is handed to `LitLenL` and to `SegmentL`. -/
inductive Segment
  | literal (byte : UInt8)
  | copy (aLength aDistance : ℕ)
  deriving DecidableEq, Repr

def segmentOf (found : ℕ) : Segment := .copy (found >>> 16) (found - (found >>> 16) <<< 16)

/-- The local variables and the hash table at the head of the loop. -/
structure DeflateState where
  ptr : ℕ
  prev : ℕ
  hash : HDeflateHash
  deriving Repr

/-- The loop over the positions that a match has skipped. -/
def fillLoop (buffer : List UInt8) (e ptr : ℕ) (hash : HDeflateHash) : Except Fault (ℕ × HDeflateHash) := do
  let (_, hash) ← hash.First buffer (ptr + 1)
  if ptr + 1 < e then fillLoop buffer e (ptr + 1) hash else pure (ptr + 1, hash)
termination_by e - ptr

/-- One turn of the loop, with what it hands on. -/
def deflateTurn (buffer : List UInt8) (s : DeflateState) : Except Fault (DeflateState × List Segment) := do
  let (found, hash) ← Match buffer s.hash s.ptr
  if found >>> 16 < s.prev >>> 16 then
    let len := s.prev >>> 16
    let (ptr, hash) ← fillLoop buffer (s.ptr + len - 2) s.ptr hash
    pure (⟨ptr + 1, 0, hash⟩, [segmentOf s.prev])
  else if found ≤ KDeflateMinLength <<< 16 then
    let byte ← elementAt buffer s.ptr
    pure (⟨s.ptr + 1, s.prev, hash⟩, [.literal byte])
  else if s.prev ≠ 0 then
    let byte ← elementAt buffer ((s.ptr : ℤ) - 1)
    pure (⟨s.ptr + 1, found, hash⟩, [.literal byte])
  else pure (⟨s.ptr + 1, found, hash⟩, [])

/-- The loop, which advances in every turn, and the match that is left at its end. -/
def deflateLoop (buffer : List UInt8) : (turns : ℕ) → DeflateState → Except Fault (ℕ × List Segment)
  | 0, _ => .error .undefined
  | turns + 1, s => do
    let (s, segments) ← deflateTurn buffer s
    if s.ptr + KDeflateMinLength - 1 < buffer.length then
      let (ptr, rest) ← deflateLoop buffer turns s
      pure (ptr, segments ++ rest)
    else if s.prev ≠ 0 then pure (s.ptr + (s.prev >>> 16) - 1, segments ++ [segmentOf s.prev])
    else pure (s.ptr, segments)

/-- `DoDeflateL` with the table of `DeflateL`: where it stops, and what it has handed on. -/
def DoDeflateL (buffer : List UInt8) : Except Fault (ℕ × List Segment) :=
  deflateLoop buffer (buffer.length + 1) ⟨0, 0, .NewLC buffer.length⟩

/-- `DeflateL`, without the end mark: the bytes that are left are literals. -/
def DeflateL (buffer : List UInt8) : Except Fault (List Segment) := do
  let (aBase, segments) ← if KDeflateMinLength < buffer.length then DoDeflateL buffer else pure (0, [])
  pure (segments ++ (buffer.drop aBase).map .literal)

end GnuPoc.Deflate
