import GnuPoc.Rcomp.DataStream

/-!
# GnuPoc.Rcomp.Segments — a stream as events and the bytes behind them

`streamOf lead segs` is the stream with these events.  The passes are followed along the segments: what the
first one leaves for each mark, which run the second one gets rid of, what the third one writes.
-/

namespace GnuPoc.Rcomp

open GnuPoc.Lib

/-- What stands at a mark, or at the two marks of a compressed run. -/
inductive Event
  | start (type : DataType)
  | stop
  | run (words : List UInt16) (compressed : Bytes)
  | align
  | enquire (aStreamPosition : ℕ)
  deriving DecidableEq

abbrev Seg := Event × Bytes

def Event.isRun : Event → Bool
  | .run _ _ => true
  | _ => false

/-- What an event has of the buffer. -/
def Event.bytes : Event → Bytes
  | .run _ compressed => compressed
  | _ => []

def Event.pieces : Event → List Piece
  | .start type => [.start type]
  | .stop => [.stop]
  | .run words _ => text words
  | .align => [.align]
  | .enquire _ => []

def Event.marks (pos : ℕ) : Event → List Mark
  | .start type => [⟨pos, .StartOfBlockWithSizePrefix type⟩]
  | .stop => [⟨pos, .EndOfBlockWithSizePrefix⟩]
  | .run words compressed =>
    [⟨pos, .StartOfCompressedUnicodeRun words⟩, ⟨pos + compressed.length, .EndOfCompressedUnicodeRun⟩]
  | .align => [⟨pos, .TwoByteAlignmentPoint⟩]
  | .enquire k => [⟨pos, .EnquireStreamPositionWhenKnown k⟩]

def buffer (segs : List Seg) : Bytes := segs.flatMap fun seg => seg.1.bytes ++ seg.2

def marksOf : ℕ → List Seg → List Mark
  | _, [] => []
  | pos, (e, bs) :: segs => e.marks pos ++ marksOf (pos + e.bytes.length + bs.length) segs

def hasRun (segs : List Seg) : Bool := segs.any fun seg => seg.1.isRun

def streamOf (lead : Bytes) (segs : List Seg) : ResourceDataStream :=
  ⟨lead ++ buffer segs, marksOf lead.length segs, hasRun segs⟩

def pieces (segs : List Seg) : List Piece := segs.flatMap fun seg => seg.1.pieces ++ [.data seg.2]

/-- The offset behind an event. -/
def Event.after (offset : ℕ) (e : Event) : ℕ := total offset e.pieces

theorem length_buffer_cons (e : Event) (bs : Bytes) (segs : List Seg) :
    (buffer ((e, bs) :: segs)).length = e.bytes.length + bs.length + (buffer segs).length := by
  rw [buffer, List.flatMap_cons, List.length_append, List.length_append]
  rfl

theorem head_marksOf {segs : List Seg} {pos used : ℕ} (h : used = pos + (buffer segs).length) :
    ((marksOf pos segs).head?.map Mark.iBufferPosition).getD used = pos := by
  rcases segs with _ | ⟨⟨e, bs⟩, segs⟩
  · exact h
  · cases e with
    | start type => rfl
    | stop => rfl
    | run words compressed => rfl
    | align => rfl
    | enquire k => rfl

theorem toNextMark_marksOf {segs : List Seg} {pos n used : ℕ} (type : MarkType)
    (h : used = pos + n + (buffer segs).length) :
    NumberOfBytesToNextMark used ⟨pos, type⟩ (marksOf (pos + n) segs) = n := by
  rw [NumberOfBytesToNextMark, head_marksOf h]
  exact Nat.add_sub_cancel_left ..

theorem before_marksOf {segs : List Seg} {lead : Bytes} :
    bytesBeforeFirstMark (lead ++ buffer segs).length (marksOf lead.length segs) = lead.length :=
  head_marksOf List.length_append

/-! ### Well-formed segments -/

/-- A run worth keeping so far: the expander gives back the words from fewer bytes than these take. -/
structure Proper (expander : Bytes → List UInt16) (words : List UInt16) (compressed : Bytes) : Prop where
  nonempty : compressed ≠ []
  shorter : compressed.length < 2 * words.length
  expands : expander compressed = words

/-- Every compressed run is proper, but for an empty one that begins the resource. -/
def Good (expander : Bytes → List UInt16) : Bool → ℕ → List Seg → Prop
  | _, _, [] => True
  | encountered, offset, (.run words compressed, bs) :: segs =>
    (Proper expander words compressed ∨ encountered = false ∧ offset = 0 ∧ words = [] ∧ compressed = []) ∧
      Good expander true (Event.after offset (.run words compressed) + bs.length) segs
  | encountered, offset, (e, bs) :: segs => Good expander encountered (e.after offset + bs.length) segs

/-- Every block that is open at the front or begins here ends here. -/
def Balanced : ℕ → List Seg → Prop
  | depth, [] => depth = 0
  | depth, (.start _, _) :: segs => Balanced (depth + 1) segs
  | 0, (.stop, _) :: _ => False
  | depth + 1, (.stop, _) :: segs => Balanced depth segs
  | depth, (_, _) :: segs => Balanced depth segs

/-- The bytes up to the next compressed run. -/
def otherLength : ℕ → List Seg → ℕ
  | _, [] => 0
  | _, (.run _ _, _) :: _ => 0
  | offset, (e, bs) :: segs => e.after offset - offset + bs.length + otherLength (e.after offset + bs.length) segs

/-- The mark at the end of the last compressed run. -/
def lastRun : ℕ → Option ℕ → List Seg → Option ℕ
  | _, last, [] => last
  | i, _, (.run _ _, _) :: segs => lastRun (i + 2) (some (i + 1)) segs
  | i, last, (_, _) :: segs => lastRun (i + 1) last segs

/-- What the marks from number `i` on hold after the first pass. -/
def Filled (sizes lengths : ℕ → ℕ) (paddings : ℕ → Bool) : ℕ → ℕ → List Seg → Prop
  | _, _, [] => True
  | i, offset, (.start type, bs) :: segs =>
    sizes i = endOf 0 (offset + GetSize type) (.data bs :: pieces segs) - (offset + GetSize type) ∧
      Filled sizes lengths paddings (i + 1) (offset + GetSize type + bs.length) segs
  | i, offset, (.run words compressed, bs) :: segs =>
    lengths (i + 1) = bs.length + otherLength (Event.after offset (.run words compressed) + bs.length) segs ∧
      Filled sizes lengths paddings (i + 2) (Event.after offset (.run words compressed) + bs.length) segs
  | i, offset, (.align, bs) :: segs =>
    paddings i = decide (offset % 2 ≠ 0) ∧
      Filled sizes lengths paddings (i + 1) (offset + offset % 2 + bs.length) segs
  | i, offset, (_, bs) :: segs => Filled sizes lengths paddings (i + 1) (offset + bs.length) segs

theorem after_run {words : List UInt16} (h : words ≠ []) (compressed : Bytes) (offset : ℕ) :
    Event.after offset (.run words compressed) = offset + sizeWithPadding offset words := by
  rw [Event.after, Event.pieces, text, if_neg h, total, List.foldl_cons, List.foldl_cons, List.foldl_nil,
    Piece.advance, Piece.advance, length_wordBytes, sizeWithPadding]
  split
  · omega
  · omega

section
variable {expander : Bytes → List UInt16} {words : List UInt16} {compressed : Bytes}

theorem Proper.words_ne (h : Proper expander words compressed) : words ≠ [] := by
  rintro rfl
  exact absurd h.shorter (Nat.not_lt_zero _)

theorem Proper.length_pos (h : Proper expander words compressed) : 0 < compressed.length :=
  List.length_pos_of_ne_nil h.nonempty

variable {encountered : Bool} {offset : ℕ}

theorem after_run_eq (h : Proper expander words compressed ∨
      encountered = false ∧ offset = 0 ∧ words = [] ∧ compressed = []) :
    Event.after offset (.run words compressed) = offset + sizeWithPadding offset words := by
  rcases h with h | ⟨-, rfl, rfl, -⟩
  · exact after_run h.words_ne compressed offset
  · rfl

theorem checkRun_eq (symbianV6hack : Bool) (pos : ℕ) (h : Proper expander words compressed ∨
      encountered = false ∧ offset = 0 ∧ words = [] ∧ compressed = []) :
    checkRun symbianV6hack encountered (numberOfBytesWhenCompressed symbianV6hack words
      ⟨pos, .StartOfCompressedUnicodeRun words⟩ ⟨pos + compressed.length, .EndOfCompressedUnicodeRun⟩)
      (2 * words.length) = .ok () := by
  rcases h with h | ⟨rfl, -, rfl, rfl⟩
  · have hpos := h.length_pos
    have hshort := h.shorter
    have hwords : 0 < 2 * words.length := by omega
    cases symbianV6hack with
    | false => simp [checkRun, assert, numberOfBytesWhenCompressed, hpos, hshort, hwords]
    | true => simp [checkRun, assert, numberOfBytesWhenCompressed, hwords]
  · cases symbianV6hack with
    | false => simp [checkRun, assert, numberOfBytesWhenCompressed]
    | true => simp [checkRun, assert, numberOfBytesWhenCompressed]

end

/-! ### The first pass -/

theorem FirstPass.flush_some {st : FirstPass} {j : ℕ} (h : st.address = some j) :
    st.flush = { st with
      lengths := Function.update st.lengths j st.runLength
      address := none } := by
  unfold FirstPass.flush
  rw [h]

@[simp] theorem FirstPass.flush_sizes (st : FirstPass) : st.flush.sizes = st.sizes := by
  unfold FirstPass.flush
  split
  · rfl
  · rfl

@[simp] theorem FirstPass.flush_paddings (st : FirstPass) : st.flush.paddings = st.paddings := by
  unfold FirstPass.flush
  split
  · rfl
  · rfl

@[simp] theorem FirstPass.flush_stack (st : FirstPass) : st.flush.stack = st.stack := by
  unfold FirstPass.flush
  split
  · rfl
  · rfl

theorem FirstPass.flush_lengths {st : FirstPass} {k : ℕ} (h : st.address ≠ some k) :
    st.flush.lengths k = st.lengths k := by
  unfold FirstPass.flush
  split
  case h_1 j hj =>
    have hne : k ≠ j := by
      rintro rfl
      exact h hj
    exact Function.update_of_ne hne _ _
  case h_2 => rfl

/-- Where the first pass stands in front of mark `i`. -/
structure FirstPass.At (st : FirstPass) (i : ℕ) : Prop where
  stack : ∀ x ∈ st.stack, x.2 < i
  nodup : (st.stack.map Prod.snd).Nodup
  address : ∀ a, st.address = some a → a < i

/-- What the first pass over segments has done, from the state `st` to the state `st'`. -/
structure FirstDone (st st' : FirstPass) (i : ℕ) (segs : List Seg) : Prop where
  uncompressedSize : st'.uncompressedSize = total st.uncompressedSize (pieces segs)
  encountered : st'.encountered = (st.encountered || hasRun segs)
  address : st'.address = lastRun i st.address segs
  filled : Filled st'.flush.sizes st'.flush.lengths st'.flush.paddings i st.uncompressedSize segs
  sizes : ∀ k < i, k ∉ st.stack.map Prod.snd → st'.flush.sizes k = st.sizes k
  open_ : ∀ depth x, st.stack[depth]? = some x →
    st'.flush.sizes x.2 = endOf depth st.uncompressedSize (pieces segs) - x.1
  lengths : ∀ k < i, st.address ≠ some k → st'.flush.lengths k = st.lengths k
  counted : ∀ a, st.address = some a → st'.flush.lengths a = st.runLength + otherLength st.uncompressedSize segs
  paddings : ∀ k < i, st'.flush.paddings k = st.paddings k

theorem pieces_cons (e : Event) (bs : Bytes) (segs : List Seg) :
    pieces ((e, bs) :: segs) = e.pieces ++ .data bs :: pieces segs := by
  rw [pieces, List.flatMap_cons, List.append_assoc]
  rfl

theorem total_pieces_cons (offset : ℕ) (e : Event) (bs : Bytes) (segs : List Seg) :
    total offset (pieces ((e, bs) :: segs)) = total (e.after offset + bs.length) (pieces segs) := by
  rw [pieces_cons, total, List.foldl_append, List.foldl_cons]
  rfl

theorem hasRun_cons (e : Event) (bs : Bytes) (segs : List Seg) :
    hasRun ((e, bs) :: segs) = (e.isRun || hasRun segs) := List.any_cons

section
variable {st st' : FirstPass} {i : ℕ} {bs : Bytes} {segs : List Seg}

theorem FirstDone.start {type : DataType} (h : FirstDone (FirstPass.skip { st.skip (GetSize type) with
      stack := (st.uncompressedSize + GetSize type, i) :: st.stack } bs.length) st' (i + 1) segs) :
    FirstDone st st' i ((.start type, bs) :: segs) where
  uncompressedSize := by
    rw [total_pieces_cons]
    exact h.uncompressedSize
  encountered := h.encountered
  address := h.address
  filled := ⟨h.open_ 0 _ rfl, h.filled⟩
  sizes k hk hmem := h.sizes k (by omega) (List.not_mem_cons_of_ne_of_not_mem (Nat.ne_of_lt hk) hmem)
  open_ depth x hx := by
    rw [h.open_ (depth + 1) x hx, pieces_cons]
    show _ = endOf depth st.uncompressedSize (.start type :: .data bs :: pieces segs) - x.1
    rw [endOf, endOf]
    rfl
  lengths k hk hne := h.lengths k (by omega) hne
  counted a ha := by
    rw [h.counted a ha]
    show st.runLength + GetSize type + bs.length + _ = _
    rw [otherLength]
    · show _ = st.runLength + (st.uncompressedSize + GetSize type - st.uncompressedSize + bs.length +
        otherLength (st.uncompressedSize + GetSize type + bs.length) segs)
      rw [Nat.add_sub_cancel_left]
      simp only [FirstPass.skip, Nat.add_assoc]
    · intro _ _ h
      cases h
  paddings k hk := h.paddings k (by omega)

theorem FirstDone.stop {start j : ℕ} {stack : List (ℕ × ℕ)} (hat : st.At i) (hstack : st.stack = (start, j) :: stack)
    (h : FirstDone (FirstPass.skip { st with
      stack := stack
      sizes := Function.update st.sizes j (st.uncompressedSize - start) } bs.length) st' (i + 1) segs) :
    FirstDone st st' i ((.stop, bs) :: segs) where
  uncompressedSize := by
    rw [total_pieces_cons]
    exact h.uncompressedSize
  encountered := h.encountered
  address := h.address
  filled := h.filled
  sizes k hk hmem := by
    rw [hstack, List.map_cons, List.mem_cons, not_or] at hmem
    rw [h.sizes k (by omega) hmem.2]
    exact Function.update_of_ne hmem.1 _ _
  open_ depth x hx := by
    rw [hstack] at hx
    have hnodup := hat.nodup
    rw [hstack, List.map_cons, List.nodup_cons] at hnodup
    rw [pieces_cons]
    cases depth with
    | zero =>
      cases hx
      have hj : j < i := hat.stack (start, j) (by rw [hstack]; exact List.mem_cons_self ..)
      rw [h.sizes j (by omega) hnodup.1]
      exact Function.update_self ..
    | succ depth =>
      rw [h.open_ depth x hx]
      rfl
  lengths k hk hne := h.lengths k (by omega) hne
  counted a ha := by
    rw [h.counted a ha]
    show st.runLength + bs.length + _ = st.runLength + (st.uncompressedSize - st.uncompressedSize + bs.length + _)
    rw [Nat.sub_self, Nat.zero_add, Nat.add_assoc]
    rfl
  paddings k hk := h.paddings k (by omega)

theorem FirstDone.align (h : FirstDone (FirstPass.skip { st.skip (st.uncompressedSize % 2) with
      paddings := Function.update st.paddings i (decide (st.uncompressedSize % 2 ≠ 0)) } bs.length) st' (i + 1)
      segs) : FirstDone st st' i ((.align, bs) :: segs) where
  uncompressedSize := by
    rw [total_pieces_cons]
    exact h.uncompressedSize
  encountered := h.encountered
  address := h.address
  filled := ⟨(h.paddings i (by omega)).trans (Function.update_self ..), h.filled⟩
  sizes k hk hmem := h.sizes k (by omega) hmem
  open_ depth x hx := by
    rw [h.open_ depth x hx, pieces_cons]
    show _ = endOf depth st.uncompressedSize (.align :: .data bs :: pieces segs) - x.1
    rw [endOf, endOf]
    rfl
  lengths k hk hne := h.lengths k (by omega) hne
  counted a ha := by
    rw [h.counted a ha]
    show st.runLength + st.uncompressedSize % 2 + bs.length + _ = st.runLength +
      (st.uncompressedSize + st.uncompressedSize % 2 - st.uncompressedSize + bs.length + _)
    rw [Nat.add_sub_cancel_left]
    simp only [Nat.add_assoc]
    rfl
  paddings k hk := (h.paddings k (by omega)).trans (Function.update_of_ne (Nat.ne_of_lt hk) _ _)

theorem FirstDone.enquire {n : ℕ} (h : FirstDone (st.skip bs.length) st' (i + 1) segs) :
    FirstDone st st' i ((.enquire n, bs) :: segs) where
  uncompressedSize := by
    rw [total_pieces_cons]
    exact h.uncompressedSize
  encountered := h.encountered
  address := h.address
  filled := h.filled
  sizes k hk hmem := h.sizes k (by omega) hmem
  open_ depth x hx := by
    rw [h.open_ depth x hx, pieces_cons]
    show _ = endOf depth st.uncompressedSize (.data bs :: pieces segs) - x.1
    rw [endOf]
    rfl
  lengths k hk hne := h.lengths k (by omega) hne
  counted a ha := by
    rw [h.counted a ha]
    show st.runLength + bs.length + _ = st.runLength + (st.uncompressedSize - st.uncompressedSize + bs.length + _)
    rw [Nat.sub_self, Nat.zero_add, Nat.add_assoc]
    rfl
  paddings k hk := h.paddings k (by omega)

theorem endOf_text (words : List UInt16) (depth offset : ℕ) (ps : List Piece) :
    endOf depth offset (text words ++ ps) = endOf depth (total offset (text words)) ps := by
  rw [text]
  split
  · rfl
  · show endOf depth offset (.align :: .data (wordBytes words) :: ps) = _
    rw [endOf, endOf]
    rfl

/-- A run ends the count of the bytes behind the last one. -/
theorem FirstDone.run {words : List UInt16} {compressed : Bytes} (hat : st.At i)
    (hafter : Event.after st.uncompressedSize (.run words compressed) =
      st.uncompressedSize + sizeWithPadding st.uncompressedSize words)
    (h : FirstDone ((st.run (i + 1) words).skip bs.length) st' (i + 2) segs) :
    FirstDone st st' i ((.run words compressed, bs) :: segs) where
  uncompressedSize := by
    rw [total_pieces_cons, hafter]
    exact h.uncompressedSize
  encountered := by
    rw [h.encountered, hasRun_cons, Event.isRun, Bool.true_or, Bool.or_true]
    rfl
  address := h.address
  filled := by
    refine ⟨?_, ?_⟩
    · rw [h.counted (i + 1) rfl, hafter]
      show 0 + bs.length + _ = _
      rw [Nat.zero_add]
      rfl
    · rw [hafter]
      exact h.filled
  sizes k hk hmem := by
    have hstack : k ∉ ((st.run (i + 1) words).skip bs.length).stack.map Prod.snd := by
      show k ∉ st.flush.stack.map Prod.snd
      rw [st.flush_stack]
      exact hmem
    rw [h.sizes k (by omega) hstack]
    exact congrFun st.flush_sizes k
  open_ depth x hx := by
    have hx' : ((st.run (i + 1) words).skip bs.length).stack[depth]? = some x := by
      show st.flush.stack[depth]? = some x
      rw [st.flush_stack]
      exact hx
    rw [h.open_ depth x hx', pieces_cons]
    show _ = endOf depth st.uncompressedSize (text words ++ .data bs :: pieces segs) - x.1
    rw [endOf_text, endOf]
    show endOf depth (st.uncompressedSize + sizeWithPadding st.uncompressedSize words + bs.length) _ - _ = _
    rw [← hafter]
    rfl
  lengths k hk hne := by
    have hother : ((st.run (i + 1) words).skip bs.length).address ≠ some k := by
      intro heq
      cases heq
      omega
    rw [h.lengths k (by omega) hother]
    exact FirstPass.flush_lengths hne
  counted a ha := by
    have hlt := hat.address a ha
    have hother : ((st.run (i + 1) words).skip bs.length).address ≠ some a := by
      intro heq
      cases heq
      omega
    rw [h.lengths a (by omega) hother]
    show st.flush.lengths a = _
    rw [FirstPass.flush_some ha]
    exact Function.update_self ..
  paddings k hk := (h.paddings k (by omega)).trans (congrFun st.flush_paddings k)

end

theorem FirstPass.At.push {st : FirstPass} {i : ℕ} (h : st.At i) (type : DataType) (n : ℕ) :
    (FirstPass.skip { st.skip (GetSize type) with
      stack := (st.uncompressedSize + GetSize type, i) :: st.stack } n).At (i + 1) where
  stack x hx := by
    rcases List.mem_cons.mp hx with rfl | hx
    · exact Nat.lt_succ_self i
    · exact Nat.lt_succ_of_lt (h.stack x hx)
  nodup := by
    refine List.nodup_cons.mpr ⟨fun hmem => ?_, h.nodup⟩
    obtain ⟨x, hx, hxi⟩ := List.mem_map.mp hmem
    exact absurd (h.stack x hx) (by omega)
  address a ha := Nat.lt_succ_of_lt (h.address a ha)

theorem FirstPass.At.pop {st : FirstPass} {i start j : ℕ} {stack : List (ℕ × ℕ)} (h : st.At i)
    (hstack : st.stack = (start, j) :: stack) (sizes : ℕ → ℕ) (n : ℕ) :
    (FirstPass.skip { st with
      stack := stack
      sizes := sizes } n).At (i + 1) where
  stack x hx := Nat.lt_succ_of_lt (h.stack x (by rw [hstack]; exact List.mem_cons_of_mem _ hx))
  nodup := by
    have hnodup := h.nodup
    rw [hstack, List.map_cons] at hnodup
    exact hnodup.of_cons
  address a ha := Nat.lt_succ_of_lt (h.address a ha)

theorem FirstPass.At.mono {st st' : FirstPass} {i : ℕ} (h : st.At i) (hstack : st'.stack = st.stack)
    (haddress : st'.address = st.address) : st'.At (i + 1) where
  stack x hx := Nat.lt_succ_of_lt (h.stack x (hstack ▸ hx))
  nodup := hstack ▸ h.nodup
  address a ha := Nat.lt_succ_of_lt (h.address a (haddress ▸ ha))

theorem FirstPass.At.run {st : FirstPass} {i : ℕ} (h : st.At i) (words : List UInt16) (n : ℕ) :
    ((st.run (i + 1) words).skip n).At (i + 2) where
  stack x hx := by
    have hx' : x ∈ st.stack := st.flush_stack ▸ hx
    have := h.stack x hx'
    omega
  nodup := by
    show (st.flush.stack.map Prod.snd).Nodup
    rw [st.flush_stack]
    exact h.nodup
  address a ha := by
    cases ha
    omega

/-- **The first pass.**  Every prefix gets the uncompressed size of its block, every run the number of bytes
behind it. -/
theorem firstLoop_done (expander : Bytes → List UInt16) (symbianV6hack : Bool) (used : ℕ) :
    ∀ (segs : List Seg) (i pos : ℕ) (st : FirstPass), used = pos + (buffer segs).length → st.At i →
      Good expander st.encountered st.uncompressedSize segs → Balanced st.stack.length segs →
      ∃ st', firstLoop symbianV6hack used i (marksOf pos segs) st = .ok st' ∧ FirstDone st st' i segs
  | [], i, pos, st, _, hat, _, hbal => by
    have hnil : st.stack = [] := List.length_eq_zero_iff.mp hbal
    refine ⟨st, rfl, ⟨rfl, (Bool.or_false _).symm, rfl, trivial, fun k _ _ => congrFun st.flush_sizes k, ?_,
      fun k _ hne => FirstPass.flush_lengths hne, ?_, fun k _ => congrFun st.flush_paddings k⟩⟩
    · intro depth x hx
      rw [hnil] at hx
      cases hx
    · intro a ha
      rw [FirstPass.flush_some ha]
      exact Function.update_self ..
  | (.start type, bs) :: segs, i, pos, st, hused, hat, hgood, hbal => by
    rw [length_buffer_cons] at hused
    have hnext := @toNextMark_marksOf segs pos bs.length used (.StartOfBlockWithSizePrefix type)
      (by simp only [Event.bytes, List.length_nil] at hused; omega)
    obtain ⟨st', hloop, hdone⟩ := firstLoop_done expander symbianV6hack used segs (i + 1) (pos + bs.length) _
      (by simp only [Event.bytes, List.length_nil] at hused; omega) (hat.push type bs.length) hgood hbal
    refine ⟨st', ?_, hdone.start⟩
    show firstLoop symbianV6hack used i (⟨pos, .StartOfBlockWithSizePrefix type⟩ :: marksOf (pos + bs.length) segs)
      st = _
    simp only [firstLoop, FirstPass.mark, run_ok_bind, hnext]
    exact hloop
  | (.stop, bs) :: segs, i, pos, st, hused, hat, hgood, hbal => by
    rw [length_buffer_cons] at hused
    have hnext := @toNextMark_marksOf segs pos bs.length used .EndOfBlockWithSizePrefix
      (by simp only [Event.bytes, List.length_nil] at hused; omega)
    rcases hstack : st.stack with _ | ⟨⟨start, j⟩, stack⟩
    · rw [hstack] at hbal
      exact hbal.elim
    · rw [hstack] at hbal
      obtain ⟨st', hloop, hdone⟩ := firstLoop_done expander symbianV6hack used segs (i + 1) (pos + bs.length) _
        (by simp only [Event.bytes, List.length_nil] at hused; omega)
        (hat.pop hstack (Function.update st.sizes j (st.uncompressedSize - start)) bs.length) hgood hbal
      refine ⟨st', ?_, hdone.stop hat hstack⟩
      show firstLoop symbianV6hack used i (⟨pos, .EndOfBlockWithSizePrefix⟩ :: marksOf (pos + bs.length) segs)
        st = _
      simp only [firstLoop, FirstPass.mark, hstack, run_ok_bind, hnext]
      exact hloop
  | (.run words compressed, bs) :: segs, i, pos, st, hused, hat, hgood, hbal => by
    rw [length_buffer_cons] at hused
    have hafter := after_run_eq hgood.1
    have hnext := @toNextMark_marksOf segs (pos + compressed.length) bs.length used .EndOfCompressedUnicodeRun
      (by simp only [Event.bytes] at hused; omega)
    have hrest := hgood.2
    rw [hafter] at hrest
    obtain ⟨st', hloop, hdone⟩ := firstLoop_done expander symbianV6hack used segs (i + 2)
      (pos + compressed.length + bs.length) ((st.run (i + 1) words).skip bs.length)
      (by simp only [Event.bytes] at hused; omega) (hat.run words bs.length) hrest (by
        show Balanced st.flush.stack.length segs
        rw [st.flush_stack]
        exact hbal)
    refine ⟨st', ?_, hdone.run hat hafter⟩
    show firstLoop symbianV6hack used i (⟨pos, .StartOfCompressedUnicodeRun words⟩ ::
      ⟨pos + compressed.length, .EndOfCompressedUnicodeRun⟩ :: marksOf (pos + compressed.length + bs.length) segs)
      st = _
    simp only [firstLoop, checkRun_eq symbianV6hack pos hgood.1, beq_self_eq_true, assert_true, run_ok_bind, hnext]
    exact hloop
  | (.align, bs) :: segs, i, pos, st, hused, hat, hgood, hbal => by
    rw [length_buffer_cons] at hused
    have hnext := @toNextMark_marksOf segs pos bs.length used .TwoByteAlignmentPoint
      (by simp only [Event.bytes, List.length_nil] at hused; omega)
    obtain ⟨st', hloop, hdone⟩ := firstLoop_done expander symbianV6hack used segs (i + 1) (pos + bs.length)
      (FirstPass.skip { st.skip (st.uncompressedSize % 2) with
        paddings := Function.update st.paddings i (decide (st.uncompressedSize % 2 ≠ 0)) } bs.length)
      (by simp only [Event.bytes, List.length_nil] at hused; omega) (hat.mono rfl rfl) hgood hbal
    refine ⟨st', ?_, hdone.align⟩
    have hskip : (if decide (st.uncompressedSize % 2 ≠ 0) = true then st.skip 1 else st) =
        st.skip (st.uncompressedSize % 2) := by
      rcases Nat.mod_two_eq_zero_or_one st.uncompressedSize with h | h
      · rw [h]
        rfl
      · rw [h]
        rfl
    show firstLoop symbianV6hack used i (⟨pos, .TwoByteAlignmentPoint⟩ :: marksOf (pos + bs.length) segs) st = _
    simp only [firstLoop, FirstPass.mark, hskip, run_ok_bind, hnext]
    exact hloop
  | (.enquire n, bs) :: segs, i, pos, st, hused, hat, hgood, hbal => by
    rw [length_buffer_cons] at hused
    have hnext := @toNextMark_marksOf segs pos bs.length used (.EnquireStreamPositionWhenKnown n)
      (by simp only [Event.bytes, List.length_nil] at hused; omega)
    obtain ⟨st', hloop, hdone⟩ := firstLoop_done expander symbianV6hack used segs (i + 1) (pos + bs.length)
      (st.skip bs.length) (by simp only [Event.bytes, List.length_nil] at hused; omega) (hat.mono rfl rfl) hgood hbal
    refine ⟨st', ?_, hdone.enquire⟩
    show firstLoop symbianV6hack used i (⟨pos, .EnquireStreamPositionWhenKnown n⟩ ::
      marksOf (pos + bs.length) segs) st = _
    simp only [firstLoop, FirstPass.mark, run_ok_bind, hnext]
    exact hloop

end GnuPoc.Rcomp
