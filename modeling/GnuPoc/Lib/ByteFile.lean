import GnuPoc.Lib.LittleEndian
import GnuPoc.Lib.Outcome

/-!
# GnuPoc.Lib.ByteFile — reading and overwriting at a position

A file is the list of its bytes.  `readAt` is a seek and a read, `writeAt` a seek and a write of at least
one byte: a gap behind the end is filled with zeros.
-/

namespace GnuPoc.Lib

def readAt (file : Bytes) (pos n : ℕ) : Bytes := (file.drop pos).take n

def writeAt (file : Bytes) (pos : ℕ) (data : Bytes) : Bytes :=
  file.take pos ++ List.replicate (pos - file.length) 0 ++ data ++ file.drop (pos + data.length)

theorem length_writeAt (file : Bytes) (pos : ℕ) (data : Bytes) :
    (writeAt file pos data).length = max file.length (pos + data.length) := by
  simp only [writeAt, List.length_append, List.length_take, List.length_replicate, List.length_drop]
  omega

theorem length_writeAt_of_le {file : Bytes} {pos : ℕ} {data : Bytes} (h : pos + data.length ≤ file.length) :
    (writeAt file pos data).length = file.length := by
  rw [length_writeAt]
  omega

theorem getElem?_writeAt_in {file : Bytes} {pos i : ℕ} {data : Bytes} (h1 : pos ≤ i) (h2 : i < pos + data.length) :
    (writeAt file pos data)[i]? = data[i - pos]? := by
  have hlen : (file.take pos ++ List.replicate (pos - file.length) 0).length = pos := by
    simp only [List.length_append, List.length_take, List.length_replicate]
    omega
  rw [writeAt, List.append_assoc, List.getElem?_append_right (by omega), hlen,
    List.getElem?_append_left (by omega)]

theorem getElem?_writeAt_out {file : Bytes} {pos i : ℕ} {data : Bytes} (hf : pos ≤ file.length)
    (h : i < pos ∨ pos + data.length ≤ i) : (writeAt file pos data)[i]? = file[i]? := by
  have h0 : pos - file.length = 0 := by omega
  rw [writeAt, h0, List.replicate_zero, List.append_nil, List.append_assoc]
  rcases h with h | h
  · rw [List.getElem?_append_left (by rw [List.length_take]; omega), List.getElem?_take_of_lt h]
  · rw [List.getElem?_append_right (by rw [List.length_take]; omega), List.length_take,
      Nat.min_eq_left hf, List.getElem?_append_right (by omega), List.getElem?_drop]
    congr 1
    omega

theorem writeAt_zero (file data : Bytes) : writeAt file 0 data = data ++ file.drop data.length := by
  simp [writeAt]

theorem writeAt_middle {a b b' : Bytes} (c : Bytes) (h : b'.length = b.length) :
    writeAt (a ++ b ++ c) a.length b' = a ++ b' ++ c := by
  have htake : (a ++ b ++ c).take a.length = a := by
    rw [List.append_assoc, List.take_left]
  have hdrop : (a ++ b ++ c).drop (a.length + b'.length) = c := by
    rw [h, ← List.length_append, List.drop_left]
  have hpad : a.length - (a ++ b ++ c).length = 0 := by
    rw [List.length_append, List.length_append]
    omega
  rw [writeAt, htake, hdrop, hpad, List.replicate_zero, List.append_nil]

@[simp] theorem length_readAt (file : Bytes) (pos n : ℕ) : (readAt file pos n).length = min n (file.length - pos) := by
  simp [readAt]

theorem length_readAt_of_le {file : Bytes} {pos n : ℕ} (h : pos + n ≤ file.length) : (readAt file pos n).length = n := by
  rw [length_readAt]
  omega

theorem readAt_middle (before bytes behind : Bytes) :
    readAt (before ++ (bytes ++ behind)) before.length bytes.length = bytes := by
  rw [readAt, List.drop_left, List.take_left]

theorem readAt_append (before behind : Bytes) (pos n : ℕ) :
    readAt (before ++ behind) (before.length + pos) n = readAt behind pos n := by
  rw [readAt, ← List.drop_drop, List.drop_left, readAt]

theorem readAt_append_left {before : Bytes} (behind : Bytes) {pos n : ℕ} (h : pos + n ≤ before.length) :
    readAt (before ++ behind) pos n = readAt before pos n := by
  rw [readAt, List.drop_append_of_le_length (by omega), List.take_append_of_le_length (by rw [List.length_drop]; omega),
    readAt]

theorem readAt_readAt {file : Bytes} {pos n i k : ℕ} (h : i + k ≤ n) :
    readAt (readAt file pos n) i k = readAt file (pos + i) k := by
  rw [readAt, readAt, readAt, List.drop_take, List.take_take, Nat.min_eq_left (by omega), List.drop_drop]

theorem readAt_add (file : Bytes) (pos i k : ℕ) : readAt file pos (i + k) = readAt file pos i ++ readAt file (pos + i) k := by
  rw [readAt, List.take_add, readAt, readAt, List.drop_drop]

theorem readAt_zero (file : Bytes) (n : ℕ) : readAt file 0 n = file.take n := by
  simp [readAt]

theorem writeAt_length (file data : Bytes) : writeAt file file.length data = file ++ data := by
  simp [writeAt]

/-!
### Writing into allocated memory

A block of memory is the list of its bytes.  A heap hands out blocks of a wanted size with unknown
contents; a write that leaves its block stops the run.
-/

/-- What `new char[n]` returns. -/
structure Heap where
  new : ℕ → Bytes
  length_new : ∀ n, (new n).length = n

/-- A heap of zeros. -/
def zeroHeap : Heap := ⟨fun n => List.replicate n 0, fun _ => List.length_replicate⟩

def poke (mem : Bytes) (pos : ℕ) (bytes : Bytes) : Outcome Bytes :=
  if pos + bytes.length ≤ mem.length then .ok (writeAt mem pos bytes) else .error .undefined

theorem poke_middle {a b bytes : Bytes} (c : Bytes) (h : bytes.length = b.length) :
    poke (a ++ b ++ c) a.length bytes = .ok (a ++ bytes ++ c) := by
  rw [poke, if_pos (by simp only [List.length_append]; omega), writeAt_middle c h]

theorem poke_front {a tail bytes : Bytes} (h : bytes.length ≤ tail.length) :
    poke (a ++ tail) a.length bytes = .ok (a ++ bytes ++ tail.drop bytes.length) := by
  have hsplit : a ++ tail = a ++ tail.take bytes.length ++ tail.drop bytes.length := by
    rw [List.append_assoc, List.take_append_drop]
  rw [hsplit, poke_middle _ (List.length_take_of_le h).symm]

/-!
### A file that is read at a position: `fgetc`, `fread`, `fseek`, `feof`

The flag of `feof` is set by a read that finds no byte, not by the read of the last byte.  `padded` is what a
reader sees that takes the end of the file for a byte.
-/

structure Stream where
  file : Bytes
  pos : ℕ
  feof : Bool
  deriving DecidableEq

namespace Stream

/-- The file just opened. -/
def fopen (file : Bytes) : Stream := ⟨file, 0, false⟩

/-- `fgetc`; `none` is `EOF`. -/
def fgetc (s : Stream) : Option UInt8 × Stream :=
  match s.file[s.pos]? with
  | some c => (some c, { s with pos := s.pos + 1 })
  | none => (none, { s with feof := true })

/-- `fread(buf, 1, n, fp)`. -/
def fread (n : ℕ) (s : Stream) : Bytes × Stream :=
  let data := (s.file.drop s.pos).take n
  (data, { s with pos := s.pos + data.length, feof := s.feof || decide (data.length < n) })

/-- `fseek(fp, offset, SEEK_SET)`, which refuses a negative offset. -/
def fseek (offset : ℤ) (s : Stream) : Stream :=
  if offset < 0 then s else { s with pos := offset.toNat, feof := false }

def ftell (s : Stream) : ℕ := s.pos

/-- The bytes not read yet. -/
def rest (s : Stream) : Bytes := s.file.drop s.pos

theorem fgetc_nil {s : Stream} (h : s.rest = []) : s.fgetc = (none, { s with feof := true }) := by
  have hnone : s.file[s.pos]? = none := by
    rw [← List.head?_drop]
    exact congrArg List.head? h
  rw [fgetc, hnone]

theorem fgetc_cons {s : Stream} {c : UInt8} {cs : Bytes} (h : s.rest = c :: cs) :
    s.fgetc = (some c, { s with pos := s.pos + 1 }) ∧ ({ s with pos := s.pos + 1 } : Stream).rest = cs := by
  have hsome : s.file[s.pos]? = some c := by
    rw [← List.head?_drop]
    exact congrArg List.head? h
  refine ⟨by rw [fgetc, hsome], ?_⟩
  show s.file.drop (s.pos + 1) = cs
  rw [← List.tail_drop]
  exact congrArg List.tail h

end Stream

end GnuPoc.Lib
