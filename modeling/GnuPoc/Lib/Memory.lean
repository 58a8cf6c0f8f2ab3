import GnuPoc.Lib.LittleEndian

/-!
# GnuPoc.Lib.Memory — what a pointer points to

The memory from a pointer on, byte by byte, where some bytes may not be readable.  A reader gives `none` when it comes to
such a byte, or to the end of the memory.
-/

namespace GnuPoc.Lib

/-- `none` is a byte that cannot be read. -/
abbrev Memory := List (Option UInt8)

/-- The first `n` bytes. -/
def readMemory (memory : Memory) (n : ℕ) : Option Bytes :=
  let bytes := (memory.take n).reduceOption
  if bytes.length = n then some bytes else none

/-- A string up to its terminator. -/
def readString : Memory → Option Bytes
  | some c :: memory => if c = 0 then some [] else (readString memory).map (c :: ·)
  | _ => none

/-- `strncmp` with all of a string: whether it stands in front. -/
def startsWith : Bytes → Memory → Option Bool
  | [], _ => some true
  | b :: bs, some c :: memory => if c = b then startsWith bs memory else some false
  | _ :: _, _ => none

/-- `strcmp`: whether the string is equal to another. -/
def equalsString (s : Bytes) (memory : Memory) : Option Bool := startsWith (s ++ [0]) memory

theorem readString_append {front rest : Bytes} {memory : Memory} (h : readString memory = some (front ++ rest)) :
    startsWith front memory = some true ∧ readString (memory.drop front.length) = some rest := by
  induction front generalizing memory with
  | nil => exact ⟨rfl, h⟩
  | cons b front ih =>
    match memory, h with
    | some c :: memory, h =>
      unfold readString at h
      split at h
      · cases h
      · obtain ⟨s, hs, heq⟩ := Option.map_eq_some_iff.mp h
        obtain ⟨rfl, rfl⟩ := List.cons.inj heq
        obtain ⟨hstart, hrest⟩ := ih hs
        exact ⟨(if_pos rfl).trans hstart, hrest⟩

end GnuPoc.Lib
