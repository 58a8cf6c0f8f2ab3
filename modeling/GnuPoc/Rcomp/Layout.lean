import GnuPoc.Lib.ByteFile

/-!
# GnuPoc.Rcomp.Layout — the uncompressed layout of a resource

A resource is a list of pieces.  A block has a prefix that holds its size, a 16-bit string begins at an even
offset; so the bytes of a piece depend on the offset of the piece and, for a prefix, on the end of its block.
-/

namespace GnuPoc.Rcomp

open GnuPoc.Lib

/-- The numeric types that may stand in front of a block. -/
inductive DataType
  | L_BYTE | L_WORD | L_LONG
  deriving DecidableEq, Repr

/-- `gTypes.GetSize`. -/
def GetSize : DataType → ℕ
  | .L_BYTE => 1
  | .L_WORD => 2
  | .L_LONG => 4

/-- `NumericValue`; `StoreValue` keeps the low bytes of a value that is too large for its type. -/
structure NumericValue where
  iNumericValueType : DataType
  iULongValue : ℕ
  deriving DecidableEq

def NumericValue.iData (v : NumericValue) : Bytes := leBytes (GetSize v.iNumericValueType) v.iULongValue

@[simp] theorem NumericValue.length_iData (v : NumericValue) : v.iData.length = GetSize v.iNumericValueType :=
  length_leBytes ..

/-- 16-bit characters in memory. -/
def wordBytes (words : List UInt16) : Bytes := words.flatMap fun w => leBytes 2 w.toNat

theorem length_wordBytes (words : List UInt16) : (wordBytes words).length = 2 * words.length := by
  induction words with
  | nil => rfl
  | cons w words ih =>
    rw [wordBytes, List.flatMap_cons, List.length_append, length_leBytes, ← wordBytes, ih, List.length_cons]
    omega

/-- The padding byte in front of what begins at an even offset. -/
def padding (offset : ℕ) : Bytes := if offset % 2 ≠ 0 then [0xab] else []

theorem length_padding (offset : ℕ) : (padding offset).length = offset % 2 := by
  unfold padding
  split
  · rw [List.length_singleton]
    omega
  · rw [List.length_nil]
    omega

/-! ### Pieces -/

inductive Piece
  | data (bytes : Bytes)
  | start (type : DataType)
  | stop
  | align
  deriving DecidableEq

/-- The offset behind a piece. -/
def Piece.advance (offset : ℕ) : Piece → ℕ
  | .data bytes => offset + bytes.length
  | .start type => offset + GetSize type
  | .stop => offset
  | .align => offset + offset % 2

/-- A string is aligned and its bytes; an empty string is nothing. -/
def text (words : List UInt16) : List Piece := if words = [] then [] else [.align, .data (wordBytes words)]

/-- The offset at which the block ends that is `depth` blocks outside the first piece. -/
def endOf : ℕ → ℕ → List Piece → ℕ
  | _, offset, [] => offset
  | 0, offset, .stop :: _ => offset
  | depth + 1, offset, .stop :: pieces => endOf depth offset pieces
  | depth, offset, .start type :: pieces => endOf (depth + 1) (offset + GetSize type) pieces
  | depth, offset, .data bytes :: pieces => endOf depth (offset + bytes.length) pieces
  | depth, offset, .align :: pieces => endOf depth (offset + offset % 2) pieces

/-- The bytes of the pieces; a prefix holds the distance to the end of its block. -/
def layout : ℕ → List Piece → Bytes
  | _, [] => []
  | offset, .data bytes :: pieces => bytes ++ layout (offset + bytes.length) pieces
  | offset, .start type :: pieces =>
    let inside := offset + GetSize type
    (⟨type, endOf 0 inside pieces - inside⟩ : NumericValue).iData ++ layout inside pieces
  | offset, .stop :: pieces => layout offset pieces
  | offset, .align :: pieces => padding offset ++ layout (offset + offset % 2) pieces

/-- The offset behind all pieces. -/
def total (offset : ℕ) (pieces : List Piece) : ℕ := pieces.foldl Piece.advance offset

theorem total_eq (pieces : List Piece) : ∀ offset, total offset pieces = offset + (layout offset pieces).length := by
  induction pieces with
  | nil => exact fun _ => rfl
  | cons piece pieces ih =>
    intro offset
    rw [total, List.foldl_cons, ← total, ih]
    rcases piece with bytes | type | _ | _
    · simp only [Piece.advance, layout, List.length_append]
      omega
    · simp only [Piece.advance, layout, List.length_append, NumericValue.length_iData]
      omega
    · rfl
    · simp only [Piece.advance, layout, List.length_append, length_padding]
      omega

/-! ### Pieces with one layout -/

/-- The same bytes at every offset, and the same ends of blocks. -/
def Same (ps qs : List Piece) : Prop :=
  ∀ offset, layout offset ps = layout offset qs ∧ ∀ depth, endOf depth offset ps = endOf depth offset qs

theorem Same.refl (ps : List Piece) : Same ps ps := fun _ => ⟨rfl, fun _ => rfl⟩

theorem Same.symm {ps qs : List Piece} (h : Same ps qs) : Same qs ps :=
  fun offset => ⟨(h offset).1.symm, fun depth => ((h offset).2 depth).symm⟩

theorem Same.trans {ps qs rs : List Piece} (h₁ : Same ps qs) (h₂ : Same qs rs) : Same ps rs :=
  fun offset => ⟨(h₁ offset).1.trans (h₂ offset).1, fun depth => ((h₁ offset).2 depth).trans ((h₂ offset).2 depth)⟩

theorem Same.cons {ps qs : List Piece} (piece : Piece) (h : Same ps qs) : Same (piece :: ps) (piece :: qs) := by
  intro offset
  rcases piece with bytes | type | _ | _
  · refine ⟨?_, fun depth => ?_⟩
    · rw [layout, layout, (h _).1]
    · rw [endOf, endOf, (h _).2]
  · refine ⟨?_, fun depth => ?_⟩
    · simp only [layout, (h _).1, (h _).2]
    · rw [endOf, endOf, (h _).2]
  · refine ⟨?_, fun depth => ?_⟩
    · rw [layout, layout, (h _).1]
    · cases depth with
      | zero => rfl
      | succ depth => rw [endOf, endOf, (h _).2]
  · refine ⟨?_, fun depth => ?_⟩
    · rw [layout, layout, (h _).1]
    · rw [endOf, endOf, (h _).2]

theorem Same.append_left {ps qs : List Piece} (front : List Piece) (h : Same ps qs) :
    Same (front ++ ps) (front ++ qs) := by
  induction front with
  | nil => exact h
  | cons piece front ih => exact ih.cons piece

theorem same_data_append (a b : Bytes) (ps : List Piece) :
    Same (.data (a ++ b) :: ps) (.data a :: .data b :: ps) := by
  refine fun offset => ⟨?_, fun depth => ?_⟩
  · simp only [layout, List.append_assoc, List.length_append, Nat.add_assoc]
  · simp only [endOf, List.length_append, Nat.add_assoc]

theorem same_data_nil (ps : List Piece) : Same (.data [] :: ps) ps :=
  fun _ => ⟨rfl, fun _ => rfl⟩

end GnuPoc.Rcomp
