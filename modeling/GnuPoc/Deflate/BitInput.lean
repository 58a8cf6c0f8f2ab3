import GnuPoc.Deflate.BitOutput
import GnuPoc.Lib.Pieces

/-!
# GnuPoc.Deflate.BitInput — the bit stream that is read (`decode.cpp`)

The input is read in words of the memory.  What is still to be read is a list of pieces: the bits that are left of the
word in hand, those of the words behind it, and those of the buffers to come.  A read goes through the pieces; one that
begins where the first piece has come to its end shifts a word by its whole width.
-/

namespace GnuPoc.Deflate

open GnuPoc.Lib

/-! ### `TBitInput` -/

/-- What a call of `Set` is given, with the memory that the pointer points into. -/
structure Buffer where
  memory : ℕ → UInt8
  aPtr : ℕ
  aLength : ℕ
  aOffset : ℕ

/-- `reverse`, on a little-endian host. -/
def reverse (aVal : UInt32) : UInt32 :=
  let v := aVal <<< 16 ||| aVal >>> 16
  let v := v ^^^ aVal
  let v := v &&& 0xff00ffff
  let aVal := aVal >>> 8 ||| aVal <<< 24
  aVal ^^^ v >>> 8

/-- The word at an address. -/
def load (memory : ℕ → UInt8) (ptr : ℕ) : UInt32 :=
  UInt32.ofNat (ofLE [memory ptr, memory (ptr + 1), memory (ptr + 2), memory (ptr + 3)])

/-- A shift, which has no meaning for the width of a word or more. -/
def shiftLeft (word : UInt32) (n : ℤ) : Except Fault UInt32 :=
  if 0 ≤ n ∧ n < 32 then .ok (word <<< UInt32.ofNat n.toNat) else .error .undefined

def shiftRight (word : UInt32) (n : ℤ) : Except Fault UInt32 :=
  if 0 ≤ n ∧ n < 32 then .ok (word >>> UInt32.ofNat n.toNat) else .error .undefined

structure TBitInput where
  iCount : ℤ
  iBits : UInt32
  iRemain : ℤ
  iPtr : ℕ
  memory : ℕ → UInt8
  /-- What the next calls of `UnderflowL` set. -/
  buffers : List Buffer

namespace TBitInput

def Set (input : TBitInput) (b : Buffer) : TBitInput :=
  let p := b.aPtr + b.aOffset / 8
  let aOffset := b.aOffset % 8
  let ptr := p / 4 * 4
  let aOffset := aOffset + p % 4 * 8
  if b.aLength = 0 then { input with iCount := 0, iRemain := 0, iPtr := ptr, memory := b.memory }
  else
    let iBits := reverse (load b.memory ptr) <<< UInt32.ofNat aOffset
    let aOffset : ℤ := 32 - aOffset
    let aLength : ℤ := b.aLength - aOffset
    let aOffset := if aLength < 0 then aOffset + aLength else aOffset
    { input with iCount := aOffset, iBits := iBits, iRemain := aLength, iPtr := ptr + 4, memory := b.memory }

/-- The constructor over a buffer; `iBits` is not initialised. -/
def onBuffer (iBits : UInt32) (b : Buffer) (buffers : List Buffer) : TBitInput :=
  Set ⟨0, iBits, 0, 0, b.memory, buffers⟩ b

/-- A handler that sets the next buffer, or leaves. -/
def UnderflowL (input : TBitInput) : Except Fault TBitInput :=
  match input.buffers with
  | [] => .error .underflow
  | b :: buffers => .ok ({ input with buffers := buffers }.Set b)

/-- The loop of `ReadL`: the value, the word in hand, the bits still required and the input. -/
def readLoop : ℕ → UInt32 → UInt32 → ℕ → TBitInput → Except Fault (UInt32 × UInt32 × ℕ × TBitInput)
  | 0, val, bits, aSize, input => if input.iCount < 0 then .error .undefined else .ok (val, bits, aSize, input)
  | fuel + 1, val, bits, aSize, input =>
    if input.iCount < 0 then do
      let upper ← shiftRight bits (32 - (input.iCount + aSize))
      let upper ← shiftLeft upper (-input.iCount)
      let val := val ||| upper
      let aSize := (-input.iCount).toNat
      if 0 < input.iRemain then
        let bits := reverse (load input.memory input.iPtr)
        let iCount := input.iCount + 32
        let iRemain := input.iRemain - 32
        let iCount := if iRemain < 0 then iCount + iRemain else iCount
        readLoop fuel val bits aSize { input with iCount := iCount, iRemain := iRemain, iPtr := input.iPtr + 4 }
      else do
        let input ← input.UnderflowL
        readLoop fuel val input.iBits aSize { input with iCount := input.iCount - aSize }
    else .ok (val, bits, aSize, input)

/-- What `ReadL` does behind its loop. -/
def takeBits (val bits : UInt32) (aSize : ℕ) (input : TBitInput) : Except Fault (UInt32 × TBitInput) := do
  let iBits ← shiftLeft bits aSize
  let last ← shiftRight bits (32 - aSize)
  .ok (val ||| last, { input with iBits := iBits })

/-- `ReadL` of a number of bits.  A round of the loop takes one bit at least, so that `aSize` of them are enough. -/
def ReadL (input : TBitInput) (aSize : ℕ) : Except Fault (UInt32 × TBitInput) :=
  if aSize = 0 then .ok (0, input)
  else do
    let (val, bits, aSize, input) ← readLoop aSize 0 input.iBits aSize { input with iCount := input.iCount - aSize }
    takeBits val bits aSize input

/-- `ReadL` of one bit. -/
def ReadBitL (input : TBitInput) : Except Fault (UInt32 × TBitInput) :=
  if input.iCount - 1 < 0 then input.ReadL 1
  else .ok (input.iBits >>> 31, { input with iCount := input.iCount - 1, iBits := input.iBits <<< 1 })

end TBitInput

/-- Reads one behind the other. -/
def readAll : List ℕ → TBitInput → Except Fault (List UInt32 × TBitInput)
  | [], input => .ok ([], input)
  | n :: sizes, input => do
    let (val, input) ← input.ReadL n
    let (values, input) ← readAll sizes input
    .ok (val :: values, input)

/-! ### The bits of the memory -/

/-- A bit of the memory, counted from the first bit of its first byte. -/
def memoryBit (memory : ℕ → UInt8) (k : ℕ) : Bool := (memory (k / 8)).toNat.testBit (7 - k % 8)

def memoryBits (memory : ℕ → UInt8) (start len : ℕ) : List Bool :=
  (List.range len).map fun i => memoryBit memory (start + i)

/-- The words from an address on, with `len` bits in them. -/
def wordPieces (memory : ℕ → UInt8) (ptr len : ℕ) : List (List Bool) :=
  (List.range ((len + 31) / 32)).map fun k => memoryBits memory (8 * ptr + 32 * k) (min 32 (len - 32 * k))

namespace Buffer

/-- The first bit of a buffer. -/
def start (b : Buffer) : ℕ := 8 * b.aPtr + b.aOffset

/-- The bits of a buffer that stand in the word of the first one. -/
def firstLength (b : Buffer) : ℕ := min b.aLength (32 - b.start % 32)

def bits (b : Buffer) : List Bool := memoryBits b.memory b.start b.aLength

/-- The bits in each word of the memory; none in one word for an empty buffer. -/
def pieces (b : Buffer) : List (List Bool) :=
  memoryBits b.memory b.start b.firstLength ::
    wordPieces b.memory (b.start / 32 * 4 + 4) (b.aLength - b.firstLength)

/-- How many bits stand in each of the words. -/
def lengths (b : Buffer) : List ℕ :=
  b.firstLength :: (List.range ((b.aLength - b.firstLength + 31) / 32)).map fun k =>
    min 32 (b.aLength - b.firstLength - 32 * k)

end Buffer

variable (memory : ℕ → UInt8)

@[simp] theorem length_memoryBits (start len : ℕ) : (memoryBits memory start len).length = len := by
  rw [memoryBits, List.length_map, List.length_range]

theorem memoryBits_add (start m n : ℕ) :
    memoryBits memory start (m + n) = memoryBits memory start m ++ memoryBits memory (start + m) n := by
  rw [memoryBits, List.range_add, List.map_append, List.map_map]
  congr 1
  apply List.map_congr_left
  intro i _
  rw [Function.comp_apply, Nat.add_assoc]

theorem wordPieces_zero (ptr : ℕ) : wordPieces memory ptr 0 = [] := rfl

theorem wordPieces_pos (ptr : ℕ) {len : ℕ} (h : 0 < len) :
    wordPieces memory ptr len =
      memoryBits memory (8 * ptr) (min 32 len) :: wordPieces memory (ptr + 4) (len - 32) := by
  have hcount : (len + 31) / 32 = (len - 32 + 31) / 32 + 1 := by omega
  rw [wordPieces, hcount, List.range_succ_eq_map, List.map_cons, List.map_map]
  congr 1
  apply List.map_congr_left
  intro k _
  rw [Function.comp_apply]
  congr 1
  · omega
  · omega

theorem flatten_wordPieces (ptr len : ℕ) : (wordPieces memory ptr len).flatten = memoryBits memory (8 * ptr) len := by
  induction len using Nat.strong_induction_on generalizing ptr with
  | _ len ih =>
    rcases Nat.eq_zero_or_pos len with rfl | hpos
    · rfl
    · rw [wordPieces_pos memory ptr hpos, List.flatten_cons, ih (len - 32) (by omega)]
      rcases Nat.lt_or_ge len 32 with hlt | hge
      · rw [min_eq_right hlt.le, Nat.sub_eq_zero_of_le hlt.le]
        simp [memoryBits]
      · obtain ⟨r, rfl⟩ := Nat.exists_eq_add_of_le hge
        rw [min_eq_left hge, Nat.add_sub_cancel_left, memoryBits_add]
        rfl

namespace Buffer

theorem flatten_pieces (b : Buffer) : b.pieces.flatten = b.bits := by
  have hle : b.firstLength ≤ b.aLength := min_le_left _ _
  rw [pieces, List.flatten_cons, flatten_wordPieces]
  rcases Nat.lt_or_ge (32 - b.start % 32) b.aLength with hlt | hge
  · have hfirst : b.firstLength = 32 - b.start % 32 := min_eq_right hlt.le
    have hnext : 8 * (b.start / 32 * 4 + 4) = b.start + b.firstLength := by omega
    rw [hnext, ← memoryBits_add, Nat.add_sub_cancel' hle]
    rfl
  · have hfirst : b.firstLength = b.aLength := min_eq_left hge
    rw [hfirst, Nat.sub_self]
    exact List.append_nil _

theorem map_length_pieces (b : Buffer) : b.pieces.map List.length = b.lengths := by
  rw [pieces, lengths, List.map_cons, length_memoryBits, wordPieces, List.map_map]
  congr 1
  apply List.map_congr_left
  intro k _
  exact length_memoryBits _ _ _

end Buffer

/-! ### Words -/

/-- The upper bits of a word. -/
def topBits (word : UInt32) (c : ℕ) : List Bool := bitString c (word.toNat / 2 ^ (32 - c))

@[simp] theorem length_topBits (word : UInt32) (c : ℕ) : (topBits word c).length = c := length_bitString _ _

theorem topBits_add (word : UInt32) {m n : ℕ} (h : m + n ≤ 32) (hm : m < 32) :
    topBits word (m + n) = topBits word m ++ topBits (word <<< UInt32.ofNat m) n := by
  have hupper : word.toNat / 2 ^ (32 - (m + n)) / 2 ^ n = word.toNat / 2 ^ (32 - m) := by
    rw [Nat.div_div_eq_div_mul, ← Nat.pow_add]
    congr 2
    omega
  have hlower : (word <<< UInt32.ofNat m).toNat / 2 ^ (32 - n) = word.toNat / 2 ^ (32 - (m + n)) % 2 ^ n := by
    have hsplit : 2 ^ (32 - n) = 2 ^ m * 2 ^ (32 - (m + n)) := two_pow_split (by omega)
    have hword : 2 ^ 32 = 2 ^ m * (2 ^ (32 - (m + n)) * 2 ^ n) := by
      rw [← Nat.pow_add, ← Nat.pow_add]
      congr 1
      omega
    rw [UInt32.toNat_shiftLeft, UInt32.toNat_ofNat_of_lt' (lt_trans hm (by decide)), Nat.mod_eq_of_lt hm,
      Nat.shiftLeft_eq, Nat.mul_comm, hword, Nat.mul_mod_mul_left, hsplit, Nat.mul_div_mul_left _ _ (Nat.two_pow_pos m),
      Nat.mod_mul_right_div_self]
  rw [topBits, bitString_add, hupper, topBits, topBits, hlower, bitString_mod le_rfl]

theorem testBit_mask (j : ℕ) :
    (0xff00ffff : ℕ).testBit j = if j < 24 then decide (j < 16) else decide (j - 24 < 8) := by
  have hmask : 0xff00ffff = 2 ^ 24 * (2 ^ 8 - 1) + (2 ^ 16 - 1) := by decide
  rw [hmask, Nat.testBit_two_pow_mul_add _ (by decide), Nat.testBit_two_pow_sub_one, Nat.testBit_two_pow_sub_one]

theorem testBit_reverse (v : UInt32) {i : ℕ} (hi : i < 32) :
    (reverse v).toNat.testBit i = v.toNat.testBit (24 - i / 8 * 8 + i % 8) := by
  have hhigh : ∀ j, 32 ≤ j → v.toNat.testBit j = false := fun j hj =>
    Nat.testBit_lt_two_pow (lt_of_lt_of_le v.toNat_lt (Nat.pow_le_pow_right (by decide) hj))
  have h8 : (8 : UInt32).toNat % 32 = 8 := rfl
  have h16 : (16 : UInt32).toNat % 32 = 16 := rfl
  have h24 : (24 : UInt32).toNat % 32 = 24 := rfl
  have hm : (0xff00ffff : UInt32).toNat = 0xff00ffff := rfl
  unfold reverse
  simp only [UInt32.toNat_xor, UInt32.toNat_or, UInt32.toNat_and, UInt32.toNat_shiftLeft, UInt32.toNat_shiftRight,
    Nat.testBit_xor, Nat.testBit_or, Nat.testBit_and, Nat.testBit_shiftLeft, Nat.testBit_shiftRight,
    Nat.testBit_mod_two_pow, h8, h16, h24, hm, testBit_mask]
  obtain h | h | h | h : i / 8 = 0 ∨ i / 8 = 1 ∨ i / 8 = 2 ∨ i / 8 = 3 := by omega
  · have hmid : 8 + i < 16 := by omega
    rw [show 24 - i / 8 * 8 + i % 8 = 16 + (8 + i) by omega]
    simp only [hmid, show 8 + i < 24 by omega, show 8 + i < 32 by omega, show ¬ i ≥ 24 by omega,
      show ¬ 8 + i ≥ 16 by omega, decide_true, decide_false, Bool.false_and, Bool.and_false, Bool.or_false,
      Bool.false_or, if_true, Bool.and_true]
    cases v.toNat.testBit (8 + i) <;> simp
  · simp only [show ¬ 8 + i < 16 by omega, show 8 + i < 24 by omega, show ¬ i ≥ 24 by omega, decide_false,
      Bool.false_and, Bool.and_false, Bool.or_false, if_true, Bool.xor_false]
    congr 1
    omega
  · rw [show 24 - i / 8 * 8 + i % 8 = 8 + i - 16 by omega, hhigh (16 + (8 + i)) (by omega)]
    simp only [show ¬ 8 + i < 24 by omega, show 8 + i < 32 by omega, show ¬ i ≥ 24 by omega,
      show 8 + i ≥ 16 by omega, show 8 + i - 24 < 8 by omega, decide_true, decide_false, Bool.false_and, Bool.and_false,
      Bool.or_false, if_false, Bool.and_true, Bool.true_and]
    cases v.toNat.testBit (8 + i) <;> simp
  · rw [show 24 - i / 8 * 8 + i % 8 = i - 24 by omega, hhigh (8 + i) (by omega)]
    simp only [show ¬ 8 + i < 24 by omega, show i < 32 by omega, show i ≥ 24 by omega,
      show ¬ 8 + i - 24 < 8 by omega, decide_true, decide_false, Bool.and_false, Bool.false_or, if_false,
      Bool.true_and, Bool.xor_false]

theorem testBit_ofLE : ∀ (bytes : Bytes) (q : ℕ) {r : ℕ}, r < 8 →
    (ofLE bytes).testBit (8 * q + r) = (bytes[q]?.getD 0).toNat.testBit r
  | [], q, r, _ => by
    rw [ofLE, Nat.zero_testBit]
    simp
  | b :: bytes, 0, r, hr => by
    rw [ofLE, Nat.add_comm, show 256 = 2 ^ 8 from rfl, Nat.testBit_two_pow_mul_add _ b.toNat_lt, if_pos (by omega),
      Nat.mul_zero, Nat.zero_add]
    rfl
  | b :: bytes, q + 1, r, hr => by
    rw [ofLE, Nat.add_comm, show 256 = 2 ^ 8 from rfl, Nat.testBit_two_pow_mul_add _ b.toNat_lt, if_neg (by omega),
      show 8 * (q + 1) + r - 8 = 8 * q + r by omega, testBit_ofLE bytes q hr]
    rfl

/-- The word in hand has the bits of four bytes, from the first byte to the last. -/
theorem topBits_reverse_load (ptr : ℕ) : topBits (reverse (load memory ptr)) 32 = memoryBits memory (8 * ptr) 32 := by
  have hload : (load memory ptr).toNat = ofLE [memory ptr, memory (ptr + 1), memory (ptr + 2), memory (ptr + 3)] := by
    have hlt := ofLE_lt [memory ptr, memory (ptr + 1), memory (ptr + 2), memory (ptr + 3)]
    simp only [List.length_cons, List.length_nil] at hlt
    rw [load, UInt32.toNat_ofNat', Nat.mod_eq_of_lt]
    omega
  rw [topBits, bitString, memoryBits]
  apply List.map_congr_left
  intro i hi
  have hlt := List.mem_range.mp hi
  rw [Nat.sub_self, Nat.pow_zero, Nat.div_one, testBit_reverse _ (by omega), hload,
    show 24 - (32 - 1 - i) / 8 * 8 + (32 - 1 - i) % 8 = 8 * (i / 8) + (7 - i % 8) by omega, testBit_ofLE _ _ (by omega),
    memoryBit, show (8 * ptr + i) / 8 = ptr + i / 8 by omega, show (8 * ptr + i) % 8 = i % 8 by omega]
  obtain h | h | h | h : i / 8 = 0 ∨ i / 8 = 1 ∨ i / 8 = 2 ∨ i / 8 = 3 := by omega
  · rw [h]
    rfl
  · rw [h]
    rfl
  · rw [h]
    rfl
  · rw [h]
    rfl

/-! ### The pieces of an input -/

theorem topBits_word (ptr : ℕ) {c : ℕ} (h : c ≤ 32) :
    topBits (reverse (load memory ptr)) c = memoryBits memory (8 * ptr) c := by
  rcases Nat.eq_or_lt_of_le h with rfl | hlt
  · exact topBits_reverse_load memory ptr
  · have hall := topBits_reverse_load memory ptr
    obtain ⟨r, hr⟩ := Nat.exists_eq_add_of_le h
    rw [hr, topBits_add _ (by omega) hlt, memoryBits_add] at hall
    exact (List.append_inj hall (by simp)).1

theorem topBits_shiftLeft_word (ptr : ℕ) {off c : ℕ} (h : off + c ≤ 32) (hoff : off < 32) :
    topBits (reverse (load memory ptr) <<< UInt32.ofNat off) c = memoryBits memory (8 * ptr + off) c := by
  have hall := topBits_word memory ptr h
  rw [topBits_add _ h hoff, memoryBits_add] at hall
  exact (List.append_inj hall (by simp)).2

namespace TBitInput

/-- The pieces behind the word in hand. -/
def later (input : TBitInput) : List (List Bool) :=
  wordPieces input.memory input.iPtr input.iRemain.toNat ++ input.buffers.flatMap Buffer.pieces

def pieces (input : TBitInput) : List (List Bool) := topBits input.iBits input.iCount.toNat :: input.later

/-- The bits that are left of the word in hand are bits of it. -/
structure Valid (input : TBitInput) : Prop where
  nonneg : 0 ≤ input.iCount
  le : input.iCount ≤ 32

theorem Set_valid (input : TBitInput) (b : Buffer) : (input.Set b).Valid := by
  have hmod : b.aOffset % 8 + (b.aPtr + b.aOffset / 8) % 4 * 8 < 32 := by omega
  unfold Set
  dsimp only
  split
  · exact ⟨le_rfl, show (0 : ℤ) ≤ 32 by decide⟩
  · constructor
    · dsimp only
      split_ifs
      all_goals omega
    · dsimp only
      split_ifs
      all_goals omega

/-- A new buffer adds its bits in front of the later ones. -/
theorem Set_pieces (input : TBitInput) (b : Buffer) :
    (input.Set b).pieces = b.pieces ++ input.buffers.flatMap Buffer.pieces := by
  have hoff : b.aOffset % 8 + (b.aPtr + b.aOffset / 8) % 4 * 8 = b.start % 32 := by
    unfold Buffer.start
    omega
  have hptr : (b.aPtr + b.aOffset / 8) / 4 * 4 = b.start / 32 * 4 := by
    unfold Buffer.start
    omega
  have hlt : b.start % 32 < 32 := Nat.mod_lt _ (by decide)
  have hstart : 8 * (b.start / 32 * 4) + b.start % 32 = b.start := by omega
  unfold Set
  dsimp only
  rw [hoff, hptr]
  split
  · next hzero =>
    have hfirst : b.firstLength = 0 := by rw [Buffer.firstLength, hzero, Nat.zero_min]
    simp [pieces, later, Buffer.pieces, hfirst, hzero, wordPieces_zero, topBits, memoryBits]
  · next hpos =>
    have hcount : (if (b.aLength : ℤ) - (32 - ((b.start % 32 : ℕ) : ℤ)) < 0 then
        32 - ((b.start % 32 : ℕ) : ℤ) + ((b.aLength : ℤ) - (32 - ((b.start % 32 : ℕ) : ℤ)))
        else 32 - ((b.start % 32 : ℕ) : ℤ)).toNat = b.firstLength := by
      unfold Buffer.firstLength
      split_ifs
      all_goals omega
    have hremain : ((b.aLength : ℤ) - (32 - ((b.start % 32 : ℕ) : ℤ))).toNat = b.aLength - b.firstLength := by
      unfold Buffer.firstLength
      omega
    have hle : b.start % 32 + b.firstLength ≤ 32 := by
      unfold Buffer.firstLength
      omega
    rw [pieces, later, Buffer.pieces]
    dsimp only
    rw [hcount, hremain, topBits_shiftLeft_word _ _ hle hlt, hstart, List.cons_append]

end TBitInput

/-! ### One read -/

/-- What the reader makes of the pieces, and the bits it has put in front of them. -/
def TakesBits (result : Except Fault (UInt32 × TBitInput)) (front n : ℕ) : Option (List Bool × List (List Bool)) → Prop
  | none => ∃ e, result = .error e
  | some (v, rest) => ∃ val input t, result = .ok (val, input) ∧ t < 2 ^ n ∧ val.toNat = front * 2 ^ n + t ∧
    v = bitString n t ∧ input.Valid ∧ input.pieces = rest

theorem shiftRight_of_lt (word : UInt32) {n : ℤ} (h : 0 ≤ n) (h' : n < 32) :
    ∃ r, shiftRight word n = .ok r ∧ r.toNat = word.toNat / 2 ^ n.toNat := by
  refine ⟨_, if_pos ⟨h, h'⟩, ?_⟩
  rw [UInt32.toNat_shiftRight, UInt32.toNat_ofNat_of_lt' (lt_trans (show n.toNat < 32 by omega) (by decide)),
    Nat.mod_eq_of_lt (show n.toNat < 32 by omega), Nat.shiftRight_eq_div_pow]

theorem toNat_div_lt (word : UInt32) {c : ℕ} (h : c ≤ 32) : word.toNat / 2 ^ (32 - c) < 2 ^ c := by
  rw [Nat.div_lt_iff_lt_mul (Nat.two_pow_pos _), ← Nat.pow_add, Nat.add_sub_cancel' h]
  exact word.toNat_lt

theorem toNat_or_of_lt {val low : UInt32} {front n t : ℕ} (hval : val.toNat = front * 2 ^ n) (hlow : low.toNat = t)
    (ht : t < 2 ^ n) : (val ||| low).toNat = front * 2 ^ n + t := by
  rw [UInt32.toNat_or, hval, hlow, ← Nat.shiftLeft_eq, ← Nat.shiftLeft_add_eq_or_of_lt ht]

theorem takeBits_takesBits {val bits : UInt32} {c n front : ℕ} {input : TBitInput} (hn : 0 < n) (hlt : n < 32)
    (hle : n ≤ c) (hc : c ≤ 32) (hcount : input.iCount = (c : ℤ) - n) (hval : val.toNat = front * 2 ^ n) :
    TakesBits (TBitInput.takeBits val bits n input) front n
      (some ((topBits bits c).take n, (topBits bits c).drop n :: input.later)) := by
  obtain ⟨last, hlast, hlastNat⟩ := shiftRight_of_lt bits (n := 32 - (n : ℤ)) (by omega) (by omega)
  have hexp : (32 - (n : ℤ)).toNat = 32 - n := by omega
  rw [hexp] at hlastNat
  have hshift : shiftLeft bits n = .ok (bits <<< UInt32.ofNat n) := if_pos ⟨by omega, by omega⟩
  obtain ⟨r, rfl⟩ := Nat.exists_eq_add_of_le hle
  have hsplit := topBits_add bits hc hlt
  have htake : (topBits bits (n + r)).take n = topBits bits n := by
    rw [hsplit, List.take_left' (length_topBits bits n)]
  have hdrop : (topBits bits (n + r)).drop n = topBits (bits <<< UInt32.ofNat n) r := by
    rw [hsplit, List.drop_left' (length_topBits bits n)]
  have hrest : input.iCount.toNat = r := by omega
  refine ⟨val ||| last, { input with iBits := bits <<< UInt32.ofNat n }, bits.toNat / 2 ^ (32 - n), ?_,
    toNat_div_lt bits hlt.le, toNat_or_of_lt hval hlastNat (toNat_div_lt bits hlt.le), htake, ⟨?_, ?_⟩, ?_⟩
  · rw [TBitInput.takeBits, hshift, hlast]
    rfl
  · change 0 ≤ input.iCount
    omega
  · change input.iCount ≤ 32
    omega
  · rw [hdrop, TBitInput.pieces]
    dsimp only
    rw [hrest]
    rfl

theorem upper_bits {val bits : UInt32} {c n front : ℕ} (hpos : 0 < c) (hlt : c < n) (hn : n ≤ 32)
    (hval : val.toNat = front * 2 ^ n) : ∃ upper shifted, shiftRight bits (32 - (c : ℤ)) = .ok upper ∧
      shiftLeft upper ((n : ℤ) - c) = .ok shifted ∧
      (val ||| shifted).toNat = (front * 2 ^ c + bits.toNat / 2 ^ (32 - c)) * 2 ^ (n - c) := by
  obtain ⟨upper, hupper, hupperNat⟩ := shiftRight_of_lt bits (n := 32 - (c : ℤ)) (by omega) (by omega)
  have hexp : (32 - (c : ℤ)).toNat = 32 - c := by omega
  rw [hexp] at hupperNat
  have htop := toNat_div_lt bits (show c ≤ 32 by omega)
  have hsplit : 2 ^ n = 2 ^ c * 2 ^ (n - c) := two_pow_split (by omega)
  have hspace : bits.toNat / 2 ^ (32 - c) * 2 ^ (n - c) < 2 ^ n := by
    rw [hsplit]
    exact (Nat.mul_lt_mul_right (Nat.two_pow_pos _)).mpr htop
  have hshift : (upper <<< UInt32.ofNat (n - c)).toNat = bits.toNat / 2 ^ (32 - c) * 2 ^ (n - c) := by
    rw [UInt32.toNat_shiftLeft, UInt32.toNat_ofNat_of_lt' (lt_trans (show n - c < 32 by omega) (by decide)),
      Nat.mod_eq_of_lt (show n - c < 32 by omega), Nat.shiftLeft_eq, hupperNat]
    exact Nat.mod_eq_of_lt (lt_of_lt_of_le hspace (Nat.pow_le_pow_right (by decide) hn))
  refine ⟨upper, upper <<< UInt32.ofNat (n - c), hupper, ?_, ?_⟩
  · rw [shiftLeft, if_pos ⟨by omega, by omega⟩]
    congr 3
    omega
  · rw [toNat_or_of_lt hval hshift hspace, hsplit, ← Nat.mul_assoc, ← Nat.add_mul]

theorem TakesBits.cons {result : Except Fault (UInt32 × TBitInput)} {bits : UInt32} {c n front : ℕ}
    {rest : Option (List Bool × List (List Bool))} (hle : c ≤ n) (hc : c ≤ 32)
    (h : TakesBits result (front * 2 ^ c + bits.toNat / 2 ^ (32 - c)) (n - c) rest) :
    TakesBits result front n (rest.map fun r => (topBits bits c ++ r.1, r.2)) := by
  rcases rest with _ | ⟨v, rest⟩
  · exact h
  · obtain ⟨val, input, t, hresult, ht, hval, rfl, hvalid, hpieces⟩ := h
    have hsplit : 2 ^ n = 2 ^ c * 2 ^ (n - c) := by
      rw [← Nat.pow_add, Nat.add_sub_cancel' hle]
    have htop := toNat_div_lt bits hc
    refine ⟨val, input, bits.toNat / 2 ^ (32 - c) * 2 ^ (n - c) + t, hresult, ?_, ?_, ?_, hvalid, hpieces⟩
    · have hmul : (bits.toNat / 2 ^ (32 - c) + 1) * 2 ^ (n - c) ≤ 2 ^ c * 2 ^ (n - c) := Nat.mul_le_mul_right _ htop
      rw [Nat.add_mul, Nat.one_mul] at hmul
      rw [hsplit]
      omega
    · rw [hval, hsplit, Nat.add_mul, Nat.mul_assoc, Nat.add_assoc]
    · have hadd := bitString_mul_add c (n - c) (bits.toNat / 2 ^ (32 - c)) ht
      rw [Nat.add_sub_cancel' hle] at hadd
      rw [hadd]
      rfl

/-- Words are taken up until the bits that are asked for are there. -/
theorem readLoop_takesBits {fuel : ℕ} {val bits : UInt32} {c n front : ℕ} {input : TBitInput} (hn : 0 < n)
    (hle : n ≤ 32) (hc : c ≤ 32) (hfuel : n ≤ fuel) (hwhole : ¬ (c = 32 ∧ n = 32)) (hcount : input.iCount = (c : ℤ) - n)
    (hval : val.toNat = front * 2 ^ n) :
    TakesBits (do
      let r ← TBitInput.readLoop fuel val bits n input
      TBitInput.takeBits r.1 r.2.1 r.2.2.1 r.2.2.2) front n (takePieces n (topBits bits c :: input.later)) := by
  induction fuel generalizing val bits c n front input with
  | zero => omega
  | succ fuel ih =>
    rw [takePieces, length_topBits, TBitInput.readLoop]
    rcases Nat.eq_zero_or_pos c with rfl | hpos
    · -- the word in hand is at its end
      rw [if_pos rfl, if_pos (show input.iCount < 0 by omega)]
      have hzero : shiftRight bits (32 - (input.iCount + n)) = .error .undefined := by
        rw [shiftRight, if_neg (by omega)]
      rw [hzero]
      exact ⟨.undefined, rfl⟩
    · rw [if_neg (Nat.ne_of_gt hpos)]
      by_cases henough : n ≤ c
      · rw [if_pos henough, if_neg (show ¬ input.iCount < 0 by omega)]
        exact takeBits_takesBits (c := c) (n := n) hn (by omega) henough hc hcount hval
      · rw [if_neg henough, if_pos (show input.iCount < 0 by omega)]
        obtain ⟨upper, shifted, hupper, hshifted, hval'⟩ := @upper_bits _ bits _ _ _ hpos (not_le.mp henough) hle hval
        have hleft : 32 - (input.iCount + n) = 32 - (c : ℤ) := by omega
        have hmissing : -input.iCount = (n : ℤ) - c := by omega
        have hsize : ((n : ℤ) - c).toNat = n - c := by omega
        rw [hleft, hupper, hmissing, ok_bind, hshifted, ok_bind, hsize]
        refine TakesBits.cons (by omega) hc ?_
        by_cases hremain : 0 < input.iRemain
        · -- the next word of the buffer
          have hword : min 32 input.iRemain.toNat ≤ 32 := min_le_left _ _
          have hnext : (input.iRemain - 32).toNat = input.iRemain.toNat - 32 := by omega
          rw [if_pos hremain, TBitInput.later, wordPieces_pos _ _ (by omega), List.cons_append,
            ← topBits_word _ _ hword, ← hnext]
          refine ih (by omega) (by omega) hword (by omega) (by omega) ?_ hval'
          dsimp only
          split_ifs
          all_goals omega
        · rw [if_neg hremain, TBitInput.later, Int.toNat_of_nonpos (not_lt.mp hremain), wordPieces_zero,
            List.nil_append]
          rcases hbuffers : input.buffers with _ | ⟨b, buffers⟩
          · -- no buffer is left
            rw [TBitInput.UnderflowL, hbuffers]
            exact ⟨.underflow, rfl⟩
          · have hpieces := TBitInput.Set_pieces { input with buffers := buffers } b
            have hvalid := TBitInput.Set_valid { input with buffers := buffers } b
            have hvalid' := hvalid.nonneg
            have hvalid'' := hvalid.le
            rw [TBitInput.UnderflowL, hbuffers, List.flatMap_cons, ← hpieces, TBitInput.pieces]
            dsimp only
            rw [ok_bind]
            refine ih (by omega) (by omega) (by omega) (by omega) (by omega) ?_ hval'
            dsimp only
            omega

theorem ReadBitL_eq (input : TBitInput) : input.ReadBitL = input.ReadL 1 := by
  unfold TBitInput.ReadBitL
  by_cases hneg : input.iCount - 1 < 0
  · rw [if_pos hneg]
  · have hloop : TBitInput.readLoop 1 0 input.iBits 1 { input with iCount := input.iCount - 1 } =
        .ok (0, input.iBits, 1, { input with iCount := input.iCount - 1 }) := by
      rw [TBitInput.readLoop, if_neg hneg]
    have htake : TBitInput.takeBits 0 input.iBits 1 { input with iCount := input.iCount - 1 } =
        .ok (input.iBits >>> 31, { input with iCount := input.iCount - 1, iBits := input.iBits <<< 1 }) := by
      rw [TBitInput.takeBits, shiftLeft, if_pos (by decide), ok_bind, shiftRight, if_pos (by decide), ok_bind,
        UInt32.zero_or]
      rfl
    rw [if_neg hneg, TBitInput.ReadL, if_neg Nat.one_ne_zero, Nat.cast_one, hloop, ok_bind]
    exact htake.symm

end GnuPoc.Deflate
