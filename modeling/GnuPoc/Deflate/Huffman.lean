import GnuPoc.Lib.Outcome
import Mathlib.Algebra.GroupWithZero.Nat

/-!
# GnuPoc.Deflate.Huffman — Huffman codes of the deflate library (`encode.cpp`, `decode.cpp`)

A code is a table of code lengths.  `Encoding` counts out the canonical code words, `Decoding` packs the decoding tree
into the memory of the table: a word holds a link for either bit, which is the distance to the next word in bytes, or
the symbol and a flag.  Pointers into the tree are the numbers of its words.
-/

namespace GnuPoc.Deflate

abbrev Words := List UInt32

/-- Why a function does not return: `Panic`, something for which the program has no meaning, or the end of the input. -/
inductive Fault
  | EHuffmanInvalidCoding
  | undefined
  | underflow
  deriving DecidableEq, Repr

theorem ok_bind {α β : Type} (a : α) (f : α → Except Fault β) : ((Except.ok a : Except Fault α) >>= f) = f a := rfl

theorem error_bind {α β : Type} (e : Fault) (f : α → Except Fault β) :
    ((Except.error e : Except Fault α) >>= f) = .error e := rfl

def KMaxCodeLength : ℕ := 27

/-- A word as a `TInt`. -/
def asTInt (word : UInt32) : ℤ := word.toInt32.toInt

/-! ### Arrays -/

section
variable {α : Type}

/-- An element; the index is checked by `TFixedArray`. -/
def elementAt (array : List α) (i : ℤ) : Except Fault α :=
  match array[i.toNat]? with
  | some a => if 0 ≤ i then .ok a else .error .undefined
  | none => .error .undefined

/-- The array with another element. -/
def modifyAt (array : List α) (i : ℤ) (f : α → α) : Except Fault (List α) :=
  if 0 ≤ i ∧ i.toNat < array.length then .ok (array.modify i.toNat f) else .error .undefined

theorem elementAt_nat {array : List α} {i : ℕ} {a : α} (h : array[i]? = some a) :
    elementAt array (i : ℤ) = .ok a := by
  simp [elementAt, h]

theorem modifyAt_nat {array : List α} {i : ℕ} (h : i < array.length) (f : α → α) :
    modifyAt array (i : ℤ) f = .ok (array.modify i f) := by
  simp [modifyAt, h]

theorem elementAt_congr {array : List α} {i j : ℕ} (h : array[i]? = array[j]?) :
    elementAt array (i : ℤ) = elementAt array (j : ℤ) := by
  simp [elementAt, h]

theorem elementAt_outside {array : List α} {i : ℤ} (h : (array.length : ℤ) ≤ i) :
    elementAt array i = .error .undefined := by
  have hnone : array[i.toNat]? = none := List.getElem?_eq_none (by omega)
  rw [elementAt, hnone]

end

/-! ### `Huffman::IsValid` -/

/-- The loop, from the last code to the first. -/
def isValidLoop : List UInt32 → UInt32 → ℤ → Bool
  | [], remain, totlen => remain = 0 ∨ totlen ≤ 1
  | p :: codes, remain, totlen =>
    let len := asTInt p
    if 0 < len then
      if (KMaxCodeLength : ℤ) < len then false
      else
        let c : UInt32 := 1 <<< UInt32.ofNat (KMaxCodeLength - len).toNat
        if remain < c then false else isValidLoop codes (remain - c) (totlen + len)
    else isValidLoop codes remain totlen

def IsValid (aHuffman : Words) : Bool := isValidLoop aHuffman.reverse (1 <<< UInt32.ofNat KMaxCodeLength) 0

/-! ### `Huffman::Encoding` -/

/-- The numbers of codes of each length; `len` is what the two functions that count make of an entry. -/
def countLengths (len : UInt32 → ℤ) (aHuffman : Words) : Except Fault (List ℕ) :=
  aHuffman.foldlM (fun counts h => if 0 ≤ len h then modifyAt counts (len h) (· + 1) else .ok counts)
    (List.replicate KMaxCodeLength 0)

/-- The first code of each length. -/
def nextCodes : List ℕ → UInt32 → Words
  | [], _ => []
  | count :: lenCount, code => code <<< 1 :: nextCodes lenCount (code <<< 1 + UInt32.ofNat count)

/-- The loop over the table. -/
def encodeLoop : Words → Words → Except Fault Words
  | [], _ => .ok []
  | h :: aHuffman, nextCode => do
    let len := asTInt h
    if len = 0 then
      let aEncodeTable ← encodeLoop aHuffman nextCode
      pure (0 :: aEncodeTable)
    else
      let code ← elementAt nextCode (len - 1)
      let nextCode ← modifyAt nextCode (len - 1) (· + 1)
      let aEncodeTable ← encodeLoop aHuffman nextCode
      pure ((code <<< UInt32.ofNat (KMaxCodeLength - len).toNat ||| h <<< UInt32.ofNat KMaxCodeLength) :: aEncodeTable)

def Encoding (aHuffman : Words) : Except Fault Words := do
  if ¬ IsValid aHuffman then .error .EHuffmanInvalidCoding
  else
    let lenCount ← countLengths (fun h => asTInt (h - 1)) aHuffman
    encodeLoop aHuffman (nextCodes lenCount 0)

/-- The bits that `TBitOutput::HuffmanL` writes for an entry of the table: the length stands in its upper bits. -/
def codeWord (aHuffCode : UInt32) : List Bool :=
  (List.range (aHuffCode.toNat >>> KMaxCodeLength)).map fun k => aHuffCode.toNat.testBit (KMaxCodeLength - 1 - k)

/-! ### `Huffman::Decoding` -/

def KHuffTerminate : UInt32 := 1

/-- `sizeof(TUint32)<<16`. -/
def KBranch1 : UInt32 := 0x40000

/-- `HuffmanSubTree`: the head of the subtree that is written below `aPtr`.  `*aValue` is read in the memory
`leaves`. -/
def HuffmanSubTree (leaves : Words → Words) : List ℤ → ℤ → ℤ → Words → Except Fault (ℤ × Words)
  | [], _, _, _ => .error .undefined
  | l :: aLevel, aPtr, aValue, tree => do
    if aValue < l then
      let (sub0, tree) ← HuffmanSubTree leaves aLevel aPtr aValue tree
      let (aPtr, tree) ← HuffmanSubTree leaves aLevel sub0 (aValue - (aPtr - sub0) - 1) tree
      let branch0 := 4 * (sub0 - (aPtr - 1))
      let tree ← modifyAt tree (aPtr - 1) fun _ => KBranch1 ||| UInt32.ofNat branch0.toNat
      pure (aPtr - 1, tree)
    else if l = aValue then
      let term0 ← elementAt (leaves tree) aValue
      let (aPtr, tree) ← HuffmanSubTree leaves aLevel aPtr (aValue - 1) tree
      let tree ← modifyAt tree (aPtr - 1) fun _ => KBranch1 ||| term0 >>> 16
      pure (aPtr - 1, tree)
    else
      let term0 ← elementAt (leaves tree) aValue
      let term1 ← elementAt (leaves tree) (aValue - 1)
      let tree ← modifyAt tree (aPtr - 1) fun _ => term1 >>> 16 <<< 16 ||| term0 >>> 16
      pure (aPtr - 1, tree)

/-- Where the leaves of each length end. -/
def levels : ℤ → List ℕ → List ℤ
  | _, [] => []
  | lit, count :: counts => lit :: levels (lit - count) counts

/-- The turn of code `ii`: its leaf is put before those of the same length.  The length is read in the memory
`lengths`. -/
def placeLeaf (lengths : Words → Words) (aSymbolBase : UInt32) (s : List ℤ × Words) (ii : ℕ) :
    Except Fault (List ℤ × Words) := do
  let word ← elementAt (lengths s.2) ii
  let len := word.toNat % 256
  if len = 0 then pure s
  else
    let level ← modifyAt s.1 ((len : ℤ) - 1) (· - 1)
    let leaf ← elementAt level ((len : ℤ) - 1)
    let tree ← modifyAt s.2 leaf (· ||| (UInt32.ofNat ii <<< 17 + aSymbolBase))
    pure (level, tree)

/-- `Decoding`.  Of the memory as it was before a loop and as it is now, `lengths` and `leaves` choose the one in which
these are read. -/
def decodingFrom (lengths leaves : Words → Words → Words) (aHuffman : Words) (aSymbolBase : UInt32) :
    Except Fault Words := do
  if ¬ IsValid aHuffman then .error .EHuffmanInvalidCoding
  else
    let counts ← countLengths (fun h => asTInt h - 1) aHuffman
    let codes := counts.sum
    let aSymbolBase := aSymbolBase <<< 17 + KHuffTerminate <<< 16
    let (level, tree) ← (List.range aHuffman.length).foldlM (placeLeaf (lengths aHuffman) aSymbolBase)
      (levels codes counts, aHuffman)
    if codes = 1 then
      let word ← elementAt tree 0
      let term := word >>> 16
      modifyAt tree 0 fun _ => term ||| term <<< 16
    else if 1 < codes then
      let (_, tree) ← HuffmanSubTree (leaves tree) level ((codes : ℤ) - 1) ((codes : ℤ) - 1) tree
      pure tree
    else pure tree

/-- `Huffman::Decoding`: the lengths, the leaves and the tree share their memory. -/
def Decoding (aHuffman : Words) (aSymbolBase : UInt32) : Except Fault Words :=
  decodingFrom (fun _ now => now) (fun _ now => now) aHuffman aSymbolBase

/-- The same from lengths and leaves that are kept apart. -/
def DecodingApart (aHuffman : Words) (aSymbolBase : UInt32) : Except Fault Words :=
  decodingFrom (fun before _ => before) (fun before _ => before) aHuffman aSymbolBase

/-! ### `TBitInput::HuffmanL` -/

/-- The loop: `aTree` is the number of a byte, one bit is read in every turn. -/
def huffmanLoop (tree : Words) : List Bool → ℕ → Except Fault (UInt32 × List Bool)
  | bits, aTree =>
    match tree[aTree / 4]? with
    | none => .error .undefined
    | some huff =>
      if aTree % 4 ≠ 0 then .error .undefined
      else
        match bits with
        | [] => .error .underflow
        | bit :: bits =>
          let huff := if bit then huff else huff <<< 16
          if huff &&& 0x10000 = 0 then huffmanLoop tree bits (aTree + (huff >>> 16).toNat)
          else .ok (huff >>> 17, bits)

/-- `TBitInput::HuffmanL` on the bits that are left of the input: the symbol, and the bits behind it. -/
def HuffmanL (aTree : Words) (bits : List Bool) : Except Fault (UInt32 × List Bool) := huffmanLoop aTree bits 0

/-!
### The lengths of a Huffman code (`encode.cpp`)

The nodes are an array in place.  In front stand the trees that are still to be put together, in decreasing order of
their counts, and behind them the nodes that have been made: a node is referred to by its number, a symbol by its number
and a flag.
-/

/-- `Panic`, which ends the program. -/
inductive TPanic
  | EHuffmanTooManyCodes
  | EHuffmanInvalidCoding
  | EHuffmanBufferOverflow
  | EHuffmanOutOfMemory
  | EHuffmanCorruptFile
  deriving DecidableEq, Repr

/-- Why a run does not go on: it panics, or what it calls has no meaning or no input. -/
inductive Stop
  | panics (aPanic : TPanic)
  | leaves (fault : Fault)
  deriving DecidableEq, Repr

def Panic {α : Type} (aPanic : TPanic) : Except Stop α := .error (.panics aPanic)

/-- What is called may leave. -/
instance : MonadLift (Except Fault) (Except Stop) where
  monadLift x := x.mapError .leaves

section
variable {α β : Type}

theorem lift_eq_ok {x : Except Fault α} {a : α} : (monadLift x : Except Stop α) = .ok a ↔ x = .ok a := by
  rcases x with e | b
  · exact iff_of_false (by rintro ⟨⟩) (by rintro ⟨⟩)
  · exact ⟨fun h => congrArg _ (Except.ok.inj h), fun h => congrArg _ (Except.ok.inj h)⟩

end

namespace Huffman

def KMaxCodes : ℕ := 0x8000

def KLeaf : UInt16 := 0x8000

structure TNode where
  iCount : UInt32
  iLeft : UInt16
  iRight : UInt16
  deriving DecidableEq, Repr

/-! ### `InsertInOrder` -/

/-- The binary search: where the nodes with a count below `aCount` begin. -/
def searchLoop (aNodes : List TNode) (aCount : UInt32) (l r : ℕ) : Except Fault ℕ :=
  if l < r then do
    let m := (l + r) / 2
    let node ← elementAt aNodes m
    if node.iCount < aCount then searchLoop aNodes aCount l m else searchLoop aNodes aCount (m + 1) r
  else pure l
termination_by r - l

/-- `aNodes[i+1]=aNodes[i]` for the `n` numbers from `l` on, the last one first. -/
def shiftNodes (l : ℕ) : ℕ → List TNode → Except Fault (List TNode)
  | 0, aNodes => pure aNodes
  | n + 1, aNodes => do
    let node ← elementAt aNodes (l + n : ℕ)
    let aNodes ← modifyAt aNodes (l + n + 1 : ℕ) fun _ => node
    shiftNodes l n aNodes

def InsertInOrder (aNodes : List TNode) (aSize : ℕ) (aCount : UInt32) (aVal : UInt16) : Except Fault (List TNode) := do
  let l ← searchLoop aNodes aCount 0 aSize
  let aNodes ← shiftNodes l (aSize - l) aNodes
  modifyAt aNodes l fun node => { node with iCount := aCount, iRight := aVal }

/-! ### `HuffmanLengthsL` -/

/-- Either branch of a node: the length of a symbol, or those below another node. -/
def branchLengths (below : Words → ℕ → Except Stop Words) (aLen : ℕ) (x : UInt16) (aLengths : Words) :
    Except Stop Words :=
  if x &&& KLeaf ≠ 0 then modifyAt aLengths (x &&& ~~~KLeaf).toNat fun _ => UInt32.ofNat aLen
  else below aLengths x.toNat

/-- `HuffmanLengthsL`; `room` is what `aLen` has left up to `KMaxCodeLength`. -/
def HuffmanLengthsL (aNodes : List TNode) : (room : ℕ) → Words → ℕ → Except Stop Words
  | 0, _, _ => Panic .EHuffmanBufferOverflow
  | room + 1, aLengths, aNode => do
    let aLen := KMaxCodeLength - room
    let node ← elementAt aNodes aNode
    let aLengths ← branchLengths (HuffmanLengthsL aNodes room) aLen node.iLeft aLengths
    branchLengths (HuffmanLengthsL aNodes room) aLen node.iRight aLengths

/-! ### `HuffmanL` -/

/-- The turn of symbol `ii`; `lCount` nodes are in order. -/
def insertSymbol (s : List TNode × ℕ) (ii : UInt32 × ℕ) : Except Fault (List TNode × ℕ) :=
  if ii.1 ≠ 0 then do
    let nodes ← InsertInOrder s.1 s.2 ii.1 (UInt16.ofNat ii.2 ||| KLeaf)
    pure (nodes, s.2 + 1)
  else pure s

/-- The loop over the frequencies: the nodes of the symbols that occur, and how many these are. -/
def sortSymbols (aFrequency : Words) (nodes : List TNode) : Except Fault (List TNode × ℕ) :=
  aFrequency.zipIdx.foldlM insertSymbol (nodes, 0)

/-- The loop that pairs off the least frequent nodes. -/
def pairLoop : (lCount : ℕ) → List TNode → Except Fault (List TNode)
  | lCount + 2, nodes => do
    let last ← elementAt nodes (lCount + 1 : ℕ)
    let before ← elementAt nodes lCount
    let nodes ← modifyAt nodes (lCount + 1 : ℕ) fun node => { node with iLeft := before.iRight }
    let nodes ← InsertInOrder nodes lCount (last.iCount + before.iCount) (UInt16.ofNat (lCount + 1))
    pairLoop (lCount + 1) nodes
  | _, nodes => pure nodes

/-- `Huffman::HuffmanL`; `memory` is what the new array of nodes holds. -/
def HuffmanL (memory : ℕ → TNode) (aFrequency : Words) : Except Stop Words := do
  if KMaxCodes < aFrequency.length then Panic .EHuffmanTooManyCodes
  else
    let (nodes, lCount) ← sortSymbols aFrequency ((List.range aFrequency.length).map memory)
    let aHuffman := List.replicate aFrequency.length 0
    let aHuffman ←
      if lCount = 0 then pure aHuffman
      else if lCount = 1 then do
        let node ← elementAt nodes 0
        modifyAt aHuffman (node.iRight &&& ~~~KLeaf).toNat fun _ => 1
      else do
        let nodes ← pairLoop lCount nodes
        HuffmanLengthsL nodes KMaxCodeLength aHuffman 1
    if ¬ IsValid aHuffman then Panic .EHuffmanInvalidCoding
    else pure aHuffman

end Huffman

end GnuPoc.Deflate
