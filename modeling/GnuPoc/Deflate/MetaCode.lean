import GnuPoc.Deflate.Huffman

/-!
# GnuPoc.Deflate.MetaCode — tables of code lengths as bits (`encode.cpp`, `decode.cpp`)

The lengths go through a move-to-front list, repeated lengths are counted in bijective base 2, and both are written in a
fixed Huffman code.  The entries that `InternalizeL` writes are a list: an entry beyond the table is one too many.
-/

namespace GnuPoc.Deflate

def KMetaCodes : ℕ := KMaxCodeLength + 1

/-- `KDeflationCodes`: the words of a `TEncoding`, which are `iLitLen` and then `iDistance`. -/
def KDeflationCodes : ℕ := 256 + (8 - 1) * 4 + 1 + (12 - 1) * 4

def HuffmanEncoding : Words := [
  0x10000000, 0x1c000000, 0x12000000, 0x1d000000, 0x26000000, 0x26800000, 0x2f000000, 0x37400000, 0x37600000,
  0x37800000, 0x3fa00000, 0x3fb00000, 0x3fc00000, 0x3fd00000, 0x47e00000, 0x47e80000, 0x47f00000, 0x4ff80000,
  0x57fc0000, 0x5ffe0000, 0x67ff0000, 0x77ff8000, 0x7fffa000, 0x7fffb000, 0x7fffc000, 0x7fffd000, 0x7fffe000,
  0x87fff000, 0x87fff800]

def HuffmanDecoding : Words := [
  0x0004006c, 0x00040064, 0x0004005c, 0x00040050, 0x00040044, 0x0004003c, 0x00040034, 0x00040021, 0x00040023,
  0x00040025, 0x00040027, 0x00040029, 0x00040014, 0x0004000c, 0x00040035, 0x00390037, 0x00330031, 0x0004002b,
  0x002f002d, 0x001f001d, 0x001b0019, 0x00040013, 0x00170015, 0x0004000d, 0x0011000f, 0x000b0009, 0x00070003,
  0x00050001]

/-- The list of both functions before the first length. -/
def metaList : List UInt8 := (List.range KMetaCodes).map UInt8.ofNat

/-- `list[i+1]=list[i]` for the `n` indices from `low` on, the last one first. -/
def moveUp (low : ℕ) : ℕ → List UInt8 → List UInt8
  | 0, list => list
  | n + 1, list => moveUp low n (list.set (low + n + 1) (list.getD (low + n) 0))

/-! ### `Huffman::ExternalizeL` -/

/-- The bits of a symbol. -/
def metaCode (symbol : ℕ) : List Bool := codeWord (HuffmanEncoding.getD symbol 0)

/-- `EncodeRunLengthL`, with what is written for a symbol. -/
def runLengthCode {β : Type} (code : ℕ → List β) (aLength : ℕ) : List β :=
  if 0 < aLength then runLengthCode code ((aLength - 1) / 2) ++ code (1 - aLength % 2) else []
termination_by aLength

def EncodeRunLengthL (aLength : ℕ) : List Bool := runLengthCode metaCode aLength

/-- The search of the list, from index `j` on. -/
def findCode (c : UInt32) : List UInt8 → ℕ → Except Fault ℕ
  | [], _ => .error .undefined
  | x :: list, j => if x.toUInt32 = c then .ok j else findCode c list (j + 1)

/-- The loop over the table, with what is written for a symbol. -/
def externalizeLoop {β : Type} (code : ℕ → List β) : Words → List UInt8 → UInt32 → ℕ → Except Fault (List β)
  | [], _, _, rl => .ok (runLengthCode code rl)
  | c :: aHuffman, list, last, rl =>
    if c = last then externalizeLoop code aHuffman list last (rl + 1)
    else do
      let j ← findCode c list.tail 1
      let rest ← externalizeLoop code aHuffman ((moveUp 1 (j - 1) list).set 1 last.toUInt8) c 0
      pure (runLengthCode code rl ++ (code (j + 1) ++ rest))

def ExternalizeL (aHuffman : Words) : Except Fault (List Bool) := externalizeLoop metaCode aHuffman metaList 0 0

/-! ### `Huffman::InternalizeL` -/

/-- How the function ends: with the bits behind those it read, in `Panic(EHuffmanCorruptFile)`, or in what it calls. -/
inductive InternalizeEnd
  | finishes (bits : List Bool)
  | panics
  | leaves (fault : Fault)
  deriving DecidableEq

/-- `while (rl>0)`: the entries behind a run, and whether there was no panic. -/
def writeRun (aNumCodes : ℕ) (last : UInt32) : ℕ → Words → Words × Bool
  | 0, written => (written, true)
  | rl + 1, written =>
    if aNumCodes < written.length then (written, false) else writeRun aNumCodes last rl (written ++ [last])

theorem huffmanLoop_ok_cons {tree : Words} {bit : Bool} {bits : List Bool} {aTree : ℕ} {r : UInt32 × List Bool}
    (h : huffmanLoop tree (bit :: bits) aTree = .ok r) : ∃ huff : UInt32, ∀ bits,
      huffmanLoop tree (bit :: bits) aTree =
        if huff &&& 0x10000 = 0 then huffmanLoop tree bits (aTree + (huff >>> 16).toNat) else .ok (huff >>> 17, bits) := by
  rw [huffmanLoop] at h
  cases hword : tree[aTree / 4]? with
  | none =>
    rw [hword] at h
    cases h
  | some huff =>
    by_cases haligned : aTree % 4 = 0
    · refine ⟨if bit then huff else huff <<< 16, fun bits => ?_⟩
      rw [huffmanLoop, hword]
      simp [haligned]
    · rw [hword] at h
      simp [haligned] at h

theorem huffmanLoop_length_lt {tree : Words} {bits rest : List Bool} {aTree : ℕ} {c : UInt32}
    (h : huffmanLoop tree bits aTree = .ok (c, rest)) : rest.length < bits.length := by
  induction bits generalizing aTree with
  | nil =>
    rw [huffmanLoop] at h
    split at h
    · cases h
    · split at h
      · cases h
      · cases h
  | cons bit bits ih =>
    obtain ⟨huff, hstep⟩ := huffmanLoop_ok_cons h
    rw [hstep] at h
    rw [List.length_cons]
    split at h
    · have hlt := ih h
      omega
    · obtain ⟨-, rfl⟩ := Prod.mk.inj (Except.ok.inj h)
      omega

/-- The loop over the bits; `rl` stands for any `TInt`, which a run can only go beyond when it goes beyond the table. -/
def internalizeLoop (aNumCodes : ℕ) (written : Words) (list : List UInt8) (last : UInt32) (rl : ℕ) (bits : List Bool) :
    Words × InternalizeEnd :=
  if written.length + rl < aNumCodes then
    match _hread : HuffmanL HuffmanDecoding bits with
    | .error fault => (written, .leaves fault)
    | .ok (c, rest) =>
      if c < 2 then internalizeLoop aNumCodes written list last (rl + rl + c.toNat + 1) rest
      else
        match writeRun aNumCodes last rl written with
        | (written, false) => (written, .panics)
        | (written, true) =>
          let list := list.set 0 last.toUInt8
          match elementAt list (c.toNat - 1 : ℕ) with
          | .error fault => (written, .leaves fault)
          | .ok next =>
            if aNumCodes < written.length then (written, .panics)
            else internalizeLoop aNumCodes (written ++ [next.toUInt32]) (moveUp 0 (c.toNat - 1) list) next.toUInt32 0 rest
  else
    match writeRun aNumCodes last rl written with
    | (written, true) => (written, .finishes bits)
    | (written, false) => (written, .panics)
termination_by bits.length
decreasing_by
  · exact huffmanLoop_length_lt _hread
  · exact huffmanLoop_length_lt _hread

/-- `InternalizeL`: the entries that are written from `aHuffman` on, and how it ends. -/
def InternalizeL (bits : List Bool) (aNumCodes : ℕ) : Words × InternalizeEnd :=
  internalizeLoop aNumCodes [] metaList 0 0 bits

/-! ### The fixed code -/

theorem huffmanLoop_append {tree : Words} {bits : List Bool} {aTree : ℕ} {c : UInt32}
    (h : huffmanLoop tree bits aTree = .ok (c, [])) (rest : List Bool) :
    huffmanLoop tree (bits ++ rest) aTree = .ok (c, rest) := by
  induction bits generalizing aTree with
  | nil => exact absurd (huffmanLoop_length_lt h) (by simp)
  | cons bit bits ih =>
    obtain ⟨huff, hstep⟩ := huffmanLoop_ok_cons h
    rw [hstep] at h
    rw [List.cons_append, hstep]
    split at h
    · next hbranch =>
      rw [if_pos hbranch]
      exact ih h
    · next hterm =>
      obtain ⟨rfl, rfl⟩ := Prod.mk.inj (Except.ok.inj h)
      rw [if_neg hterm]
      rfl

theorem HuffmanL_metaCode {symbol : ℕ} (h : symbol < 29) (rest : List Bool) :
    HuffmanL HuffmanDecoding (metaCode symbol ++ rest) = .ok (UInt32.ofNat symbol, rest) := by
  have hall : ∀ symbol < 29, huffmanLoop HuffmanDecoding (metaCode symbol) 0 = .ok (UInt32.ofNat symbol, []) := by
    decide +kernel
  exact huffmanLoop_append (hall symbol h) rest

end GnuPoc.Deflate
