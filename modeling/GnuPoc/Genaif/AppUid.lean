import GnuPoc.Genaif.Checksum
import GnuPoc.Genaif.Words
import GnuPoc.Lib.Stdio

/-!
# GnuPoc.Genaif.AppUid — `genaif -change-app-uid3` (`genaif.c`)

`changeAppUid` copies words until `feof`, which the read of the last word does not set.  What it copies is the
file with one word more, all or part of which is `0xff`.
-/

namespace GnuPoc.Genaif

open GnuPoc.Lib

/-- What a call returns, and the file it leaves behind. -/
structure Run where
  ret : ℕ
  fout : Bytes
  deriving DecidableEq

/-- The word of the output for a word of the input. -/
def replaced (oldid newid id : UInt32) : UInt32 := if id = oldid then newid else id

/-- The loop `while(!feof(fpin))`, with `count`; out of fuel it is `none`. -/
def copyWords (oldid newid : UInt32) : ℕ → Stream → ℕ → Option (ℕ × Bytes)
  | 0, _, _ => none
  | fuel + 1, fpin, count =>
    if fpin.feof then some (count, [])
    else
      let (id, fpin) := GetLong fpin
      let count := if id = oldid then count + 1 else count
      (copyWords oldid newid fuel fpin count).map fun (count, out) => (count, PutLong (replaced oldid newid id) ++ out)

/-- The UIDs of a program of EPOC release 5 or 6. -/
def isApp (l0 l1 : UInt32) : Bool := (l0 = 0x10000079 ∧ l1 = 0x1000006c) ∨ (l0 = 0x1000007a ∧ l1 = 0x100039ce)

/-- The `int` that `strtol` is assigned to. -/
def toWord (v : ℤ) : UInt32 := UInt32.ofNat (v % 4294967296).toNat

def changeAppUid (uid3 : Bytes) (fin : Bytes) : Option Run :=
  let (l0, fpin) := GetLong (Stream.fopen fin)
  let (l1, fpin) := GetLong fpin
  let (oldid, fpin) := GetLong fpin
  let (_, fpin) := GetLong fpin
  if ¬ isApp l0 l1 then some ⟨1, []⟩
  else
    let l2 := toWord (strtol uid3)
    let head := PutLong l0 ++ PutLong l1 ++ PutLong l2 ++ PutLong (uidcsum [l0, l1, l2])
    (copyWords oldid l2 (fin.length + 1) fpin 1).map fun (count, out) => ⟨if count ≠ 2 then 1 else 0, head ++ out⟩

/-! ### What is asked for -/

/-- Every whole word that is the old UID replaced; what is less than a word stays. -/
def replaceWords (oldid newid : UInt32) : Bytes → Bytes
  | a :: b :: c :: d :: tail => PutLong (replaced oldid newid (wordOf a b c d)) ++ replaceWords oldid newid tail
  | short => short

/-- A file that begins with the UIDs of a program. -/
def Recognised (l0 l1 : UInt32) (fin : Bytes) : Prop := isApp l0 l1 = true ∧ PutLong l0 ++ PutLong l1 <+: fin

/-- The output is the input with the third UID and the checksum replaced, and each later word that is the old UID. -/
structure UidReplaced (l0 l1 newid : UInt32) (fin fout : Bytes) : Prop where
  length : fout.length = fin.length
  front : PutLong l0 ++ PutLong l1 ++ PutLong newid ++ PutLong (uidcsum [l0, l1, newid]) <+: fout
  words : ∀ a b c d, (fin.drop 8).take 4 = [a, b, c, d] →
    fout.drop 16 = replaceWords (wordOf a b c d) newid (fin.drop 16)

/-! ### What the loop copies -/

/-- The bytes with the word behind them that the loop reads before it sees the end. -/
def overrun (bs : Bytes) : Bytes := bs ++ List.replicate (4 - bs.length % 4) 0xff

theorem overrun_word (a b c d : UInt8) (tail : Bytes) :
    overrun (a :: b :: c :: d :: tail) = a :: b :: c :: d :: overrun tail := by
  have hmod : (a :: b :: c :: d :: tail).length % 4 = tail.length % 4 := by
    simp only [List.length_cons]
    omega
  rw [overrun, hmod]
  rfl

theorem overrun_short {bs : Bytes} (h : bs.length < 4) : overrun bs = padded bs := by
  rw [overrun, padded, Nat.mod_eq_of_lt h]

theorem length_overrun (bs : Bytes) : (overrun bs).length = 4 * (bs.length / 4 + 1) := by
  rw [overrun, List.length_append, List.length_replicate]
  omega

theorem length_replaceWords (oldid newid : UInt32) (bs : Bytes) :
    (replaceWords oldid newid bs).length = bs.length := by
  fun_induction replaceWords oldid newid bs with
  | case1 a b c d tail ih =>
    rw [List.length_append, length_PutLong, ih]
    simp only [List.length_cons]
    omega
  | case2 short h => rfl

theorem replaceWords_word (oldid newid id : UInt32) :
    replaceWords oldid newid (PutLong id) = PutLong (replaced oldid newid id) := by
  show PutLong (replaced oldid newid (wordOf _ _ _ _)) ++ [] = _
  rw [wordOf_PutLong, List.append_nil]

theorem copyWords_feof (oldid newid : UInt32) {fuel : ℕ} {fpin : Stream} (count : ℕ) (hfuel : 0 < fuel) (heof : fpin.feof = true) :
    copyWords oldid newid fuel fpin count = some (count, []) := by
  obtain ⟨k, rfl⟩ : ∃ k, fuel = k + 1 := ⟨fuel - 1, by omega⟩
  rw [copyWords, if_pos heof]

/-- **The loop.**  It replaces the words of what is left, and of the word it reads behind that. -/
theorem copyWords_eq (oldid newid : UInt32) {fuel : ℕ} {fpin : Stream} (count : ℕ) (heof : fpin.feof = false)
    (hfuel : fpin.rest.length < fuel) :
    ∃ n, copyWords oldid newid (fuel + 1) fpin count = some (n, replaceWords oldid newid (overrun fpin.rest)) := by
  induction fuel generalizing fpin count with
  | zero => omega
  | succ fuel ih =>
    rw [copyWords, if_neg (by rw [heof]; exact Bool.false_ne_true)]
    by_cases hshort : fpin.rest.length < 4
    · obtain ⟨hword, hend⟩ := GetLong_short hshort
      dsimp only
      rw [copyWords_feof oldid newid _ (Nat.succ_pos fuel) hend, overrun_short hshort, ← hword, replaceWords_word]
      exact ⟨_, by rw [Option.map_some, List.append_nil]⟩
    · obtain ⟨a, b, c, d, tail, hrest⟩ := exists_word (not_lt.mp hshort)
      have htail : ({ fpin with pos := fpin.pos + 4 } : Stream).rest = tail := by
        have hdrop : fpin.rest.drop 4 = tail := by rw [hrest]; rfl
        rw [← hdrop]
        exact (List.drop_drop ..).symm
      rw [hrest] at hfuel
      simp only [List.length_cons] at hfuel
      have hleft : ({ fpin with pos := fpin.pos + 4 } : Stream).rest.length < fuel := by rw [htail]; omega
      have hopen : ({ fpin with pos := fpin.pos + 4 } : Stream).feof = false := heof
      obtain ⟨n, hn⟩ := ih (if wordOf a b c d = oldid then count + 1 else count) hopen hleft
      rw [GetLong_word hrest]
      dsimp only
      rw [hn, htail, hrest, overrun_word, replaceWords]
      exact ⟨n, rfl⟩

/-! ### The whole file -/

theorem read_recognised {l0 l1 : UInt32} {fin : Bytes} (h : Recognised l0 l1 fin) :
    GetLong (Stream.fopen fin) = (l0, ⟨fin, 4, false⟩) ∧ GetLong ⟨fin, 4, false⟩ = (l1, ⟨fin, 8, false⟩) := by
  obtain ⟨-, tail, htail⟩ := h
  rw [List.append_assoc] at htail
  have hsecond : (⟨fin, 4, false⟩ : Stream).rest = PutLong l1 ++ tail := by
    show fin.drop 4 = PutLong l1 ++ tail
    rw [← htail]
    rfl
  exact ⟨GetLong_PutLong htail.symm, GetLong_PutLong hsecond⟩

/-- The header, with the new UID. -/
def headOf (l0 l1 l2 : UInt32) : Bytes := PutLong l0 ++ PutLong l1 ++ PutLong l2 ++ PutLong (uidcsum [l0, l1, l2])

theorem changeAppUid_read {l0 l1 : UInt32} {fin : Bytes} (uid3 : Bytes) (h : Recognised l0 l1 fin) :
    changeAppUid uid3 fin =
      (copyWords (GetLong ⟨fin, 8, false⟩).1 (toWord (strtol uid3)) (fin.length + 1)
        (GetLong (GetLong ⟨fin, 8, false⟩).2).2 1).map fun (count, out) =>
          ⟨if count ≠ 2 then 1 else 0, headOf l0 l1 (toWord (strtol uid3)) ++ out⟩ := by
  obtain ⟨h0, h1⟩ := read_recognised h
  rw [changeAppUid, h0]
  dsimp only
  rw [h1]
  dsimp only
  rw [if_neg (not_not.mpr h.1)]
  rfl

theorem changeAppUid_short {l0 l1 : UInt32} {fin : Bytes} (uid3 : Bytes) (h : Recognised l0 l1 fin) (hlen : fin.length < 16) :
    ∃ ret, changeAppUid uid3 fin = some ⟨ret, headOf l0 l1 (toWord (strtol uid3))⟩ := by
  have hrest : (GetLong ⟨fin, 8, false⟩).2.rest.length < 4 := by
    rw [rest_GetLong, List.length_drop, Stream.rest, List.length_drop]
    dsimp only
    omega
  rw [changeAppUid_read uid3 h, copyWords_feof _ _ _ (Nat.succ_pos _) (GetLong_short hrest).2]
  refine ⟨1, ?_⟩
  rw [Option.map_some]
  dsimp only
  rw [List.append_nil]
  rfl

/-- Behind the header the words are replaced, up to a word behind the last whole word of the file. -/
theorem changeAppUid_long {l0 l1 : UInt32} {fin : Bytes} (uid3 : Bytes) (h : Recognised l0 l1 fin) {a b c d : UInt8}
    (hold : (fin.drop 8).take 4 = [a, b, c, d]) (hlen : 16 ≤ fin.length) :
    ∃ ret, changeAppUid uid3 fin = some ⟨ret, headOf l0 l1 (toWord (strtol uid3)) ++
      replaceWords (wordOf a b c d) (toWord (strtol uid3)) (overrun (fin.drop 16))⟩ := by
  obtain ⟨a', b', c', d', tail, hword⟩ := exists_word (by rw [List.length_drop]; omega : 4 ≤ (fin.drop 8).length)
  have heq : [a', b', c', d'] = [a, b, c, d] := by
    rw [← hold, hword]
    rfl
  obtain ⟨rfl, rfl, rfl, rfl, -⟩ := by simpa only [List.cons.injEq] using heq
  have hread : GetLong ⟨fin, 8, false⟩ = (wordOf a' b' c' d', ⟨fin, 12, false⟩) := GetLong_word hword
  obtain ⟨w, x, y, z, tail', hcsum⟩ := exists_word (by rw [List.length_drop]; omega : 4 ≤ (fin.drop 12).length)
  have hread' : GetLong ⟨fin, 12, false⟩ = (wordOf w x y z, ⟨fin, 16, false⟩) := GetLong_word hcsum
  have hfuel : (⟨fin, 16, false⟩ : Stream).rest.length < fin.length := by
    show (fin.drop 16).length < _
    rw [List.length_drop]
    omega
  obtain ⟨n, hn⟩ := copyWords_eq (wordOf a' b' c' d') (toWord (strtol uid3)) 1 rfl hfuel
  rw [changeAppUid_read uid3 h, hread]
  dsimp only
  rw [hread']
  dsimp only
  rw [hn]
  exact ⟨_, rfl⟩

theorem length_headOf (l0 l1 l2 : UInt32) : (headOf l0 l1 l2).length = 16 := rfl

/-- **The length of the output**: the words of the file and one more. -/
theorem length_changeAppUid {l0 l1 : UInt32} {fin : Bytes} (uid3 : Bytes) (h : Recognised l0 l1 fin) :
    ∃ run, changeAppUid uid3 fin = some run ∧
      run.fout.length = if fin.length < 16 then 16 else 4 * (fin.length / 4 + 1) := by
  by_cases hlen : fin.length < 16
  · obtain ⟨ret, hrun⟩ := changeAppUid_short uid3 h hlen
    exact ⟨_, hrun, (if_pos hlen).symm⟩
  · obtain ⟨a, b, c, d, tail, hword⟩ := exists_word (by rw [List.length_drop]; omega : 4 ≤ (fin.drop 8).length)
    obtain ⟨ret, hrun⟩ := changeAppUid_long uid3 h (by rw [hword]; rfl : (fin.drop 8).take 4 = [a, b, c, d]) (not_lt.mp hlen)
    refine ⟨_, hrun, ?_⟩
    rw [if_neg hlen, List.length_append, length_headOf, length_replaceWords, length_overrun, List.length_drop]
    omega

/-- Cut where the last whole word of the file ends, the output is what is asked for. -/
theorem replaceWords_overrun (oldid newid : UInt32) (bs : Bytes) :
    (replaceWords oldid newid (overrun bs)).take (4 * (bs.length / 4)) =
      replaceWords oldid newid (bs.take (4 * (bs.length / 4))) := by
  fun_induction replaceWords oldid newid bs with
  | case1 a b c d tail ih =>
    have hlen : 4 * ((a :: b :: c :: d :: tail).length / 4) = 4 + 4 * (tail.length / 4) := by
      simp only [List.length_cons]
      omega
    rw [overrun_word, hlen, Nat.add_comm]
    show (PutLong _ ++ replaceWords oldid newid (overrun tail)).take _ = PutLong _ ++ replaceWords oldid newid (tail.take _)
    rw [Nat.add_comm, List.take_append, length_PutLong, Nat.add_sub_cancel_left, ih,
      List.take_of_length_le (by rw [length_PutLong]; omega)]
  | case2 short h =>
    have hlen : short.length / 4 = 0 := by
      by_contra hne
      obtain ⟨a, b, c, d, tail, rfl⟩ := exists_word (by omega : 4 ≤ short.length)
      exact h a b c d tail rfl
    rw [hlen, Nat.mul_zero, List.take_zero, List.take_zero]
    rfl

/-- **Changing the UID.**  Up to the end of the last whole word, the third UID and the checksum are replaced, and every
later word that is the old UID; all others stay. -/
theorem changeAppUid_front {l0 l1 : UInt32} {fin : Bytes} (uid3 : Bytes) (h : Recognised l0 l1 fin) (hlen : 16 ≤ fin.length) :
    ∃ run, changeAppUid uid3 fin = some run ∧ UidReplaced l0 l1 (toWord (strtol uid3))
      (fin.take (4 * (fin.length / 4))) (run.fout.take (4 * (fin.length / 4))) := by
  obtain ⟨a, b, c, d, tail, hword⟩ := exists_word (by rw [List.length_drop]; omega : 4 ≤ (fin.drop 8).length)
  have hold : (fin.drop 8).take 4 = [a, b, c, d] := by rw [hword]; rfl
  obtain ⟨ret, hrun⟩ := changeAppUid_long uid3 h hold hlen
  have hcut : (fin.drop 16).length / 4 + 4 = fin.length / 4 := by
    rw [List.length_drop]
    omega
  refine ⟨_, hrun, ?_, ?_, ?_⟩
  · rw [List.length_take, List.length_take, List.length_append, length_headOf, length_replaceWords, length_overrun,
      List.length_drop]
    omega
  · rw [List.take_append, List.take_of_length_le (by rw [length_headOf]; omega)]
    exact List.prefix_append _ _
  · intro a' b' c' d' hold'
    have heq : [a', b', c', d'] = [a, b, c, d] := by
      rw [← hold', ← hold, List.drop_take, List.take_take, Nat.min_eq_left (by omega)]
    obtain ⟨rfl, rfl, rfl, rfl, -⟩ := by simpa only [List.cons.injEq] using heq
    rw [List.drop_take, List.drop_left' (length_headOf _ _ _), List.drop_take]
    have hnum : 4 * (fin.length / 4) - 16 = 4 * ((fin.drop 16).length / 4) := by omega
    rw [hnum]
    exact replaceWords_overrun _ _ _

/-- The output is never the file with its UID replaced: it is longer. -/
theorem changeAppUid_longer {l0 l1 : UInt32} {fin : Bytes} (uid3 : Bytes) (h : Recognised l0 l1 fin) :
    ∃ run, changeAppUid uid3 fin = some run ∧ ¬ UidReplaced l0 l1 (toWord (strtol uid3)) fin run.fout := by
  obtain ⟨run, hrun, hlen⟩ := length_changeAppUid uid3 h
  refine ⟨run, hrun, ?_⟩
  intro hrep
  have hsame := hrep.length
  rw [hlen] at hsame
  split at hsame
  · omega
  · omega

/-- A program with its UID in the header and in one word behind it. -/
def small : Bytes :=
  PutLong 0x10000079 ++ PutLong 0x1000006c ++ PutLong 0x10004567 ++ PutLong 0x1b2c3d4e ++ PutLong 0x10004567

theorem small_front : ∃ run, changeAppUid (chars "0x10001234") small = some run ∧
    UidReplaced 0x10000079 0x1000006c (toWord (strtol (chars "0x10001234"))) (small.take (4 * (small.length / 4)))
      (run.fout.take (4 * (small.length / 4))) :=
  changeAppUid_front (chars "0x10001234") ⟨by decide, by decide⟩ (by decide)

/-- A file of five words comes out with a sixth. -/
theorem small_longer : ∃ fout, changeAppUid (chars "0x10001234") small = some ⟨0, fout⟩ ∧
    Recognised 0x10000079 0x1000006c small ∧ ¬ UidReplaced 0x10000079 0x1000006c 0x10001234 small fout := by
  refine ⟨_, (by decide +kernel : changeAppUid (chars "0x10001234") small = some ⟨0, headOf 0x10000079 0x1000006c 0x10001234
    ++ PutLong 0x10001234 ++ PutLong 0xffffffff⟩), ⟨by decide, by decide⟩, ?_⟩
  intro hrep
  exact absurd hrep.length (by decide)

theorem small_never : ∃ run, changeAppUid (chars "0x10001234") small = some run ∧
    ¬ UidReplaced 0x10000079 0x1000006c (toWord (strtol (chars "0x10001234"))) small run.fout :=
  changeAppUid_longer (chars "0x10001234") ⟨by decide, by decide⟩

end GnuPoc.Genaif
