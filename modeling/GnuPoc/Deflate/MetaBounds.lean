import GnuPoc.Deflate.MetaRoundTrip
import GnuPoc.Deflate.SubTree

/-!
# GnuPoc.Deflate.MetaBounds — how far `InternalizeL` writes (`decode.cpp`)

A bit stream stands for symbols, and symbols for entries.  A run is not compared with the end of the table when its digits
are read; the test behind the loop lets one entry too many pass.
-/

namespace GnuPoc.Deflate

/-! ### Symbols -/

/-- The symbols that the bits hold, up to those that are no whole symbol. -/
def symbols (bits : List Bool) : List ℕ :=
  match _hread : HuffmanL HuffmanDecoding bits with
  | .error _ => []
  | .ok (c, rest) => c.toNat :: symbols rest
termination_by bits.length
decreasing_by exact huffmanLoop_length_lt _hread

/-- The entries in front of the last run, and the length of that run, behind another symbol. -/
def codedBehind (coded : ℕ × ℕ) (symbol : ℕ) : ℕ × ℕ :=
  if symbol < 2 then (coded.1, 2 * coded.2 + symbol + 1) else (coded.1 + coded.2 + 1, 0)

/-- How many entries the symbols stand for: a run of `0` and `1` is its length in bijective base 2, any other symbol is an
entry. -/
def codedEntries (coded : ℕ × ℕ) (symbols : List ℕ) : ℕ :=
  (symbols.foldl codedBehind coded).1 + (symbols.foldl codedBehind coded).2

@[simp] theorem codedEntries_nil (coded : ℕ × ℕ) : codedEntries coded [] = coded.1 + coded.2 := rfl

@[simp] theorem codedEntries_cons (coded : ℕ × ℕ) (symbol : ℕ) (symbols : List ℕ) :
    codedEntries coded (symbol :: symbols) = codedEntries (codedBehind coded symbol) symbols := rfl

/-- No symbol takes the entries from below the end of the table to beyond it. -/
def MeetsEnd (aNumCodes : ℕ) (coded : ℕ × ℕ) (symbols : List ℕ) : Prop :=
  ∀ k < symbols.length, codedEntries coded (symbols.take k) < aNumCodes →
    codedEntries coded (symbols.take (k + 1)) ≤ aNumCodes

theorem le_codedEntries (coded : ℕ × ℕ) (symbols : List ℕ) : coded.1 + coded.2 ≤ codedEntries coded symbols := by
  induction symbols generalizing coded with
  | nil => exact le_rfl
  | cons symbol symbols ih =>
    have hstep : coded.1 + coded.2 ≤ (codedBehind coded symbol).1 + (codedBehind coded symbol).2 := by
      rw [codedBehind]
      split
      · dsimp only
        omega
      · dsimp only
        omega
    exact hstep.trans (ih _)

theorem meetsEnd_cons {aNumCodes symbol : ℕ} {coded : ℕ × ℕ} {symbols : List ℕ} :
    MeetsEnd aNumCodes coded (symbol :: symbols) ↔
      (coded.1 + coded.2 < aNumCodes →
        (codedBehind coded symbol).1 + (codedBehind coded symbol).2 ≤ aNumCodes) ∧
        MeetsEnd aNumCodes (codedBehind coded symbol) symbols := by
  constructor
  · intro h
    refine ⟨fun hlt => ?_, fun k hk hlt => ?_⟩
    · simpa using h 0 (by simp) (by simpa using hlt)
    · simpa using h (k + 1) (by simpa using hk) (by simpa using hlt)
  · rintro ⟨hfirst, hrest⟩ k hk hlt
    cases k with
    | zero => simpa using hfirst (by simpa using hlt)
    | succ k => simpa using hrest k (by simpa using hk) (by simpa using hlt)

theorem meetsEnd_of_le {aNumCodes : ℕ} (coded : ℕ × ℕ) (h : aNumCodes ≤ coded.1 + coded.2) (symbols : List ℕ) :
    MeetsEnd aNumCodes coded symbols := by
  intro k _ hlt
  have hle := le_codedEntries coded (symbols.take k)
  omega

theorem symbols_of_error {bits : List Bool} {fault : Fault} (h : HuffmanL HuffmanDecoding bits = .error fault) :
    symbols bits = [] := by
  rw [symbols]
  split
  · rfl
  · next hok => rw [h] at hok; cases hok

theorem symbols_of_ok {bits rest : List Bool} {c : UInt32} (h : HuffmanL HuffmanDecoding bits = .ok (c, rest)) :
    symbols bits = c.toNat :: symbols rest := by
  rw [symbols]
  split
  · next hfault => rw [h] at hfault; cases hfault
  · next hok =>
    obtain ⟨rfl, rfl⟩ := Prod.mk.inj (Except.ok.inj (h.symm.trans hok))
    rfl

/-! ### The loop -/

theorem halves_decoding : ∀ a < 28, ∀ word, HuffmanDecoding[a]? = some word → ∀ bit : Bool,
    let half := if bit then word.toNat / 65536 else word.toNat % 65536
    (half % 2 = 0 → half % 4 = 0 ∧ a + half / 4 < 28) ∧ (half % 2 = 1 → half / 2 < 29) := by
  have hall : ∀ a < 28, ∀ bit : Bool,
      let half := if bit then (HuffmanDecoding.getD a 0).toNat / 65536 else (HuffmanDecoding.getD a 0).toNat % 65536
      (half % 2 = 0 → half % 4 = 0 ∧ a + half / 4 < 28) ∧ (half % 2 = 1 → half / 2 < 29) := by decide +kernel
  intro a ha word hword
  have hget : HuffmanDecoding.getD a 0 = word := by
    rw [List.getD_eq_getElem?_getD, hword]
    rfl
  exact hget ▸ hall a ha

theorem huffmanLoop_cases (bits : List Bool) {a : ℕ} (ha : a < 28) :
    huffmanLoop HuffmanDecoding bits (4 * a) = .error .underflow ∨
      ∃ c rest, huffmanLoop HuffmanDecoding bits (4 * a) = .ok (c, rest) ∧ c.toNat < 29 := by
  have hword : HuffmanDecoding[a]? = some HuffmanDecoding[a] := List.getElem?_eq_getElem ha
  induction bits generalizing a with
  | nil =>
    left
    have hindex : 4 * a / 4 = a := by omega
    have haligned : 4 * a % 4 = 0 := by omega
    rw [huffmanLoop, hindex, hword]
    simp [haligned]
  | cons bit bits ih =>
    obtain ⟨heven, hodd⟩ := halves_decoding a ha _ hword bit
    rw [huffmanLoop_cons hword]
    generalize (if bit then HuffmanDecoding[a].toNat / 65536 else HuffmanDecoding[a].toNat % 65536) = half at *
    dsimp only
    by_cases hbranch : half % 2 = 0
    · obtain ⟨hfour, hlt⟩ := heven hbranch
      rw [if_pos hbranch, show 4 * a + half = 4 * (a + half / 4) by omega]
      exact ih hlt (List.getElem?_eq_getElem hlt)
    · have hsymbol := hodd (by omega)
      rw [if_neg hbranch]
      refine .inr ⟨_, bits, rfl, ?_⟩
      rwa [UInt32.toNat_ofNat_of_lt' (lt_trans hsymbol (by decide))]

theorem HuffmanL_cases (bits : List Bool) : HuffmanL HuffmanDecoding bits = .error .underflow ∨
    ∃ c rest, HuffmanL HuffmanDecoding bits = .ok (c, rest) ∧ c.toNat < 29 :=
  huffmanLoop_cases bits (a := 0) (by decide)

theorem length_writeRun (aNumCodes : ℕ) (last : UInt32) (rl : ℕ) (written : Words) :
    (writeRun aNumCodes last rl written).1.length ≤ aNumCodes ↔ written.length + rl ≤ aNumCodes := by
  by_cases hfits : written.length + rl ≤ aNumCodes
  · rw [writeRun_eq hfits, List.length_append, List.length_replicate]
  · refine iff_of_false ?_ hfits
    have hlong : ∀ rl (written : Words), aNumCodes < written.length + rl →
        aNumCodes < (writeRun aNumCodes last rl written).1.length := by
      intro rl
      induction rl with
      | zero => exact fun written hlt => hlt
      | succ rl ih =>
        intro written hlt
        rw [writeRun]
        split
        · assumption
        · exact ih _ (by rw [List.length_append, List.length_singleton]; omega)
    exact Nat.not_le.mpr (hlong rl written (by omega))

/-- The entries stay in the table exactly if the rest of the symbols meets its end; every access is to the list. -/
theorem internalizeLoop_within {aNumCodes : ℕ} (bits : List Bool) (written : Words) (list : List UInt8) (last : UInt32)
    (rl : ℕ) (h : written.length ≤ aNumCodes) (hlist : list.length = 28) :
    ((internalizeLoop aNumCodes written list last rl bits).1.length ≤ aNumCodes ↔
      written.length + rl ≤ aNumCodes ∧ MeetsEnd aNumCodes (written.length, rl) (symbols bits)) ∧
      (internalizeLoop aNumCodes written list last rl bits).2 ≠ .leaves .undefined := by
  induction hn : bits.length using Nat.strongRecOn generalizing bits written list last rl with
  | _ n ih =>
    by_cases hmore : written.length + rl < aNumCodes
    · rcases HuffmanL_cases bits with hread | ⟨c, rest, hread, hc⟩
      · have hloop : internalizeLoop aNumCodes written list last rl bits = (written, .leaves .underflow) := by
          rw [internalizeLoop, if_pos hmore]
          split
          · next hfault => rw [hread] at hfault; cases hfault; rfl
          · next hok => rw [hread] at hok; cases hok
        rw [hloop, symbols_of_error hread]
        exact ⟨iff_of_true h ⟨hmore.le, fun k hk => absurd hk (Nat.not_lt_zero k)⟩, by simp⟩
      · have hlt : rest.length < n := hn ▸ huffmanLoop_length_lt hread
        rw [symbols_of_ok hread, meetsEnd_cons]
        by_cases hdigit : c.toNat < 2
        · have hbehind : codedBehind (written.length, rl) c.toNat = (written.length, rl + rl + c.toNat + 1) := by
            rw [codedBehind, if_pos hdigit]
            dsimp only
            rw [Nat.two_mul]
          obtain ⟨hiff, hdefined⟩ := ih _ hlt rest written list last (rl + rl + c.toNat + 1) h hlist rfl
          rw [internalizeLoop_digit hmore hread (UInt32.lt_iff_toNat_lt.mpr hdigit), hiff, hbehind]
          refine ⟨?_, hdefined⟩
          constructor
          · rintro ⟨hle, hmeets⟩
            exact ⟨hmore.le, fun _ => hle, hmeets⟩
          · rintro ⟨-, hfirst, hmeets⟩
            exact ⟨hfirst hmore, hmeets⟩
        · have hbehind : codedBehind (written.length, rl) c.toNat = (written.length + rl + 1, 0) := if_neg hdigit
          obtain ⟨j, hj⟩ : ∃ j, c.toNat = j + 1 := ⟨c.toNat - 1, by omega⟩
          obtain ⟨next, hnext⟩ : ∃ next, (list.set 0 last.toUInt8)[j]? = some next :=
            ⟨_, List.getElem?_eq_getElem (by rw [List.length_set]; omega)⟩
          rw [show c = UInt32.ofNat (j + 1) by rw [← hj, UInt32.ofNat_toNat]] at hread
          have hlength : (written ++ List.replicate rl last ++ [next.toUInt32]).length = written.length + rl + 1 := by
            simp [Nat.add_assoc]
          obtain ⟨hiff, hdefined⟩ := ih _ hlt rest (written ++ List.replicate rl last ++ [next.toUInt32])
            (moveUp 0 j (list.set 0 last.toUInt8)) next.toUInt32 0 (by omega) (by rw [length_moveUp, List.length_set, hlist]) rfl
          rw [internalizeLoop_literal hmore (by omega) hread (by omega) hnext, hiff, hbehind, hlength]
          refine ⟨?_, hdefined⟩
          constructor
          · rintro ⟨hle, hmeets⟩
            exact ⟨hmore.le, fun _ => hle, hmeets⟩
          · rintro ⟨-, hfirst, hmeets⟩
            exact ⟨hfirst hmore, hmeets⟩
    · have hmeets := meetsEnd_of_le (written.length, rl) (Nat.not_lt.mp hmore) (symbols bits)
      have hrun := length_writeRun aNumCodes last rl written
      rw [internalizeLoop, if_neg hmore, and_iff_left hmeets, ← hrun]
      rcases writeRun aNumCodes last rl written with ⟨entries, _ | _⟩
      · exact ⟨Iff.rfl, by simp⟩
      · exact ⟨Iff.rfl, by simp⟩

/-! ### The claim about every stream -/

/-- Every entry that is written is one of the table, whatever the end, and the list is not left. -/
def WithinTable (bits : List Bool) (aNumCodes : ℕ) : Prop :=
  (InternalizeL bits aNumCodes).1.length ≤ aNumCodes ∧ (InternalizeL bits aNumCodes).2 ≠ .leaves .undefined

/-- **Bounds.**  No entry is written outside the table exactly if no symbol takes the entries beyond its end. -/
theorem within_iff (bits : List Bool) (aNumCodes : ℕ) :
    WithinTable bits aNumCodes ↔ MeetsEnd aNumCodes (0, 0) (symbols bits) := by
  obtain ⟨hiff, hdefined⟩ := internalizeLoop_within bits [] metaList 0 0 (Nat.zero_le aNumCodes) rfl
  rw [WithinTable, InternalizeL, and_iff_left hdefined, hiff]
  exact and_iff_right (Nat.zero_le _)

/-- A run of one entry more than a `TEncoding` has: `InitL` gets a table that was written beyond its end. -/
theorem long_run_outside :
    (∃ bits, (InternalizeL (EncodeRunLengthL (KDeflationCodes + 1)) KDeflationCodes).2 = .finishes bits) ∧
      ¬ WithinTable (EncodeRunLengthL (KDeflationCodes + 1)) KDeflationCodes := by
  have hwrite : writeRun KDeflationCodes 0 (KDeflationCodes + 1) [] = (List.replicate (KDeflationCodes + 1) 0, true) := by
    decide +kernel
  have hloop : InternalizeL (EncodeRunLengthL (KDeflationCodes + 1)) KDeflationCodes =
      (List.replicate (KDeflationCodes + 1) 0, .finishes []) := by
    have hrun : internalizeLoop KDeflationCodes [] metaList 0 0 (EncodeRunLengthL (KDeflationCodes + 1) ++ []) =
        internalizeLoop KDeflationCodes [] metaList 0 (KDeflationCodes + 1) [] := internalizeLoop_run (.inr (by decide))
    rw [List.append_nil] at hrun
    rw [InternalizeL, hrun, internalizeLoop, if_neg (by decide), hwrite]
  rw [WithinTable, hloop]
  exact ⟨⟨[], rfl⟩, fun h => absurd h.1 (by rw [List.length_replicate]; omega)⟩

end GnuPoc.Deflate
