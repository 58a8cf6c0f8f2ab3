import GnuPoc.Rcomp.UnicodeCompressor
import Mathlib.Data.List.TakeWhile
import Mathlib.Tactic.IntervalCases

/-!
# GnuPoc.Rcomp.UnicodeRun — what a run writes

Each step of the compressor writes bytes that mean the characters it has taken from the queue, and leaves the
reader in the mode and with the windows of the compressor.  A run of at most four characters fits in the queue
of bytes.
-/

namespace GnuPoc.Rcomp

open GnuPoc.Lib

/-! ### Treatments -/

theorem dynamicWindow {aCode : ℕ} (hlt : aCode < 0x10000) (h : DynamicWindowOffsetIndex aCode ≠ -1) :
    0 ≤ DynamicWindowOffsetIndex aCode ∧ DynamicWindowOffsetIndex aCode ≤ 255 ∧
      inWindow aCode (DynamicWindowBase (DynamicWindowOffsetIndex aCode)) = true ∧
      0x80 ≤ DynamicWindowBase (DynamicWindowOffsetIndex aCode) := by
  unfold DynamicWindowOffsetIndex at h ⊢
  by_cases hlow : aCode < 0x80
  · exact absurd (if_pos hlow) h
  rw [if_neg hlow] at h ⊢
  by_cases hmiddle : 0x3400 ≤ aCode ∧ aCode ≤ 0xDFFF
  · exact absurd (if_pos hmiddle) h
  rw [if_neg hmiddle]
  rcases hspecial : iSpecialBase.findIdx? (inWindow aCode) with _ | i
  · simp only
    unfold DynamicWindowBase
    by_cases hhigh : 0xE000 ≤ aCode
    · rw [if_pos hhigh, if_neg (by omega), if_neg (by omega), if_pos (by omega), inWindow_iff]
      omega
    · rw [if_neg hhigh, if_neg (by omega), if_pos (by omega), inWindow_iff]
      omega
  · obtain ⟨hi, hin, -⟩ := List.findIdx?_eq_some_iff_getElem.mp hspecial
    have hi' : i < 7 := hi
    have hbase : DynamicWindowBase (0xF9 + (i : ℤ)) = iSpecialBase[i] := by
      interval_cases i <;> rfl
    have hall : ∀ base ∈ iSpecialBase, 0x80 ≤ base := by decide
    show 0 ≤ 0xF9 + (i : ℤ) ∧ 0xF9 + (i : ℤ) ≤ 255 ∧ inWindow aCode (DynamicWindowBase (0xF9 + (i : ℤ))) = true ∧
      0x80 ≤ DynamicWindowBase (0xF9 + (i : ℤ))
    rw [hbase]
    exact ⟨by omega, by omega, hin, hall _ (List.getElem_mem hi)⟩

theorem treatment_cases (aCode : UInt16) :
    (treatment aCode.toNat = EPlainASCII ∧ EncodeAsIs aCode.toNat = true) ∨
    (treatment aCode.toNat = EPlainUnicode ∧ aCode.toNat < 0xE000) ∨
    (treatment aCode.toNat = EFirstStatic ∧ aCode.toNat < 0x80) ∨
    (0 ≤ treatment aCode.toNat ∧ treatment aCode.toNat ≤ 255 ∧
      inWindow aCode.toNat (DynamicWindowBase (treatment aCode.toNat)) = true ∧
      0x80 ≤ DynamicWindowBase (treatment aCode.toNat)) := by
  have hlt := aCode.toNat_lt
  unfold treatment
  by_cases has : EncodeAsIs aCode.toNat = true
  · exact .inl ⟨if_pos has, has⟩
  rw [if_neg has]
  by_cases hdynamic : DynamicWindowOffsetIndex aCode.toNat ≠ -1
  · rw [if_pos hdynamic]
    exact .inr (.inr (.inr (dynamicWindow hlt hdynamic)))
  rw [if_neg hdynamic]
  have hnone : aCode.toNat < 0x80 ∨ 0x3400 ≤ aCode.toNat ∧ aCode.toNat ≤ 0xDFFF := by
    by_contra hcon
    have h := not_not.mp hdynamic
    unfold DynamicWindowOffsetIndex at h
    rw [if_neg (by omega), if_neg (by omega)] at h
    rcases hspecial : iSpecialBase.findIdx? (inWindow aCode.toNat) with _ | i
    · simp only [hspecial] at h
      omega
    · simp only [hspecial] at h
      omega
  rcases hnone with hlow | ⟨hle, hge⟩
  · have hstatic : StaticWindowIndex aCode.toNat = 0 := by
      have hin : inWindow aCode.toNat 0 = true := inWindow_iff.mpr (by omega)
      unfold StaticWindowIndex iStaticWindow
      rw [List.findIdx?_cons, if_pos hin]
      rfl
    rw [hstatic]
    exact .inr (.inr (.inl ⟨rfl, hlow⟩))
  · have hstatic : StaticWindowIndex aCode.toNat = -1 := by
      have hall : ∀ base ∈ iStaticWindow, ¬inWindow aCode.toNat base = true := by
        intro base hbase
        have hle' : base ≤ 0x3000 := by
          revert base
          decide
        rw [inWindow_iff]
        omega
      unfold StaticWindowIndex
      rw [List.findIdx?_eq_none_iff.mpr fun base hbase => Bool.eq_false_iff.mpr (hall base hbase)]
    rw [hstatic]
    exact .inr (.inl ⟨rfl, by omega⟩)

def TAction.Proper (a : TAction) : Prop := a.iTreatment = treatment a.iCode.toNat

/-- Two bytes are enough for the character. -/
def Reader.Short (s : Reader) (a : TAction) : Prop :=
  if s.iUnicodeMode then a.iCode.toNat < 0xE000 ∨ 0xF2FF < a.iCode.toNat
  else a.iTreatment = EPlainASCII ∨ a.iTreatment = EFirstStatic ∨ inWindow a.iCode.toNat s.base = true

namespace TUnicodeCompressor

/-- The reader of what has been written. -/
def reader (c : TUnicodeCompressor) : Reader := ⟨c.iUnicodeMode, c.iDynamicWindow, c.iDynamicWindowIndex⟩

structure Ready (c : TUnicodeCompressor) : Prop where
  base : c.iActiveWindowBase = c.reader.base
  windows : ∀ i, 0x80 ≤ c.iDynamicWindow i
  proper : ∀ a ∈ c.iInputBuffer.toList, a.Proper

/-! ### Bytes -/

/-- The result is the compressor with these bytes more in its queue. -/
def Wrote (c : TUnicodeCompressor) (bytes : Bytes) (r : Run TUnicodeCompressor) : Prop :=
  ∃ buffer, r = .ok { c with iOutputBuffer := buffer } ∧ buffer.toList = c.iOutputBuffer.toList ++ bytes

variable {c : TUnicodeCompressor}

theorem wrote_byte (n : ℕ) (h : c.iOutputBuffer.size < 12) : Wrote c [UInt8.ofNat n] (c.WriteByte n) := by
  refine ⟨c.iOutputBuffer.push (UInt8.ofNat n), ?_, RingBuffer.toList_push _ h⟩
  unfold WriteByte EMaxOutputBufferSize
  rw [if_neg (by omega)]

theorem Wrote.bind {a b : Bytes} {r : Run TUnicodeCompressor}
    {f : TUnicodeCompressor → Run TUnicodeCompressor} (h : Wrote c a r)
    (hf : ∀ buffer, buffer.size = c.iOutputBuffer.size + a.length →
      Wrote { c with iOutputBuffer := buffer } b (f { c with iOutputBuffer := buffer })) :
    Wrote c (a ++ b) (r >>= f) := by
  obtain ⟨buffer, rfl, hbuffer⟩ := h
  have hsize : buffer.size = c.iOutputBuffer.size + a.length := by
    rw [← RingBuffer.length_toList, hbuffer, List.length_append, RingBuffer.length_toList]
  obtain ⟨buffer', hr, hbuffer'⟩ := hf buffer hsize
  exact ⟨buffer', hr, by rw [hbuffer', hbuffer, List.append_assoc]⟩

theorem wrote_two (m n : ℕ) (h : c.iOutputBuffer.size + 2 ≤ 12) :
    Wrote c [UInt8.ofNat m, UInt8.ofNat n] (c.WriteByte m >>= WriteByte n) :=
  (wrote_byte m (by omega)).bind fun buffer hsize => wrote_byte n (by
    simp only [hsize, List.length_singleton]
    omega)

theorem wrote_three (l m n : ℕ) (h : c.iOutputBuffer.size + 3 ≤ 12) :
    Wrote c [UInt8.ofNat l, UInt8.ofNat m, UInt8.ofNat n]
      (c.WriteByte l >>= fun c => c.WriteByte m >>= WriteByte n) :=
  (wrote_byte l (by omega)).bind fun buffer hsize => wrote_two m n (by
    simp only [hsize, List.length_singleton]
    omega)

theorem findWindow_some {p : ℕ → Bool} {i : Fin 8} (h : c.findWindow p = some i) :
    p (c.iDynamicWindow i) = true := List.find?_some (p := fun i => p (c.iDynamicWindow i)) h

/-! ### Characters -/

/-- The bytes of a character: at least one, and at most `k`. -/
def Writes (k : ℕ) (c : TUnicodeCompressor) (a : TAction) (r : Run TUnicodeCompressor) : Prop :=
  ∃ bytes, Wrote c bytes r ∧ Means c.reader bytes [a.iCode] c.reader ∧ bytes ≠ [] ∧ bytes.length ≤ k

theorem writeUCharacter_writes {a : TAction} {k : ℕ} (hmode : c.iUnicodeMode = true)
    (hk : k = 3 ∨ k = 2 ∧ c.reader.Short a) (hroom : c.iOutputBuffer.size + k ≤ 12) :
    Writes k c a (c.WriteUCharacter a.iCode.toNat) := by
  have hmode' : c.reader.iUnicodeMode = true := hmode
  unfold WriteUCharacter
  by_cases htag : 0xE000 ≤ a.iCode.toNat ∧ a.iCode.toNat ≤ 0xF2FF
  · have hthree : k = 3 := by
      refine hk.resolve_right fun ⟨_, hshort⟩ => ?_
      rw [Reader.Short, if_pos hmode'] at hshort
      omega
    subst hthree
    rw [if_pos htag]
    exact ⟨_, wrote_three _ _ _ hroom, means_unicodeQuote hmode _, List.cons_ne_nil _ _, le_rfl⟩
  · have hle : 2 ≤ k := by omega
    rw [if_neg htag]
    exact ⟨_, wrote_two _ _ (by omega), means_unicode hmode (by omega), List.cons_ne_nil _ _, hle⟩

theorem writeSCharacter_writes {a : TAction} {k : ℕ} (hready : c.Ready) (ha : a.Proper)
    (hmode : c.iUnicodeMode = false) (hk : k = 3 ∨ k = 2 ∧ c.reader.Short a)
    (hroom : c.iOutputBuffer.size + k ≤ 12) : Writes k c a (c.WriteSCharacter a) := by
  have hle : 2 ≤ k := by omega
  have hmode' : c.reader.iUnicodeMode = false := hmode
  unfold WriteSCharacter
  simp only
  by_cases hascii : a.iTreatment = EPlainASCII
  · have has : EncodeAsIs a.iCode.toNat = true := by
      rcases treatment_cases a.iCode with ⟨-, h⟩ | ⟨h, -⟩ | ⟨h, -⟩ | ⟨h, -⟩
      · exact h
      all_goals
        rw [← ha, hascii] at h
        exact absurd h (by decide)
    rw [if_pos hascii]
    exact ⟨_, wrote_byte _ (by omega), means_plain hmode' has, List.cons_ne_nil _ _, by simp; omega⟩
  rw [if_neg hascii]
  by_cases hstatic : EFirstStatic ≤ a.iTreatment ∧ a.iTreatment ≤ ELastStatic
  · have hfirst : a.iTreatment = EFirstStatic ∧ a.iCode.toNat < 0x80 := by
      rcases treatment_cases a.iCode with ⟨h, -⟩ | ⟨h, -⟩ | h | ⟨-, h, -⟩
      · exact absurd (ha.trans h) hascii
      · rw [ha, h] at hstatic
        exact absurd hstatic (by decide)
      · rwa [← ha] at h
      · rw [← ha] at h
        unfold EFirstStatic at hstatic
        omega
    have hquoted : c.reader.quoted 0 a.iCode.toNat = a.iCode.toNat := by
      rw [Reader.quoted, if_pos hfirst.2]
      exact Nat.zero_add _
    rw [if_pos hstatic, hfirst.1]
    exact ⟨_, wrote_two _ _ (by omega), means_quote hmode' (by omega) (by omega) hquoted, List.cons_ne_nil _ _, hle⟩
  rw [if_neg hstatic]
  by_cases hactive : inWindow a.iCode.toNat c.iActiveWindowBase = true
  · rw [if_pos hactive]
    rw [hready.base, inWindow_iff] at hactive
    rw [hready.base]
    exact ⟨_, wrote_byte _ (by omega), means_window hmode' hactive.1 hactive.2, List.cons_ne_nil _ _, by simp; omega⟩
  rw [if_neg hactive]
  rcases hfind : c.findWindow (inWindow a.iCode.toNat) with _ | i
  · have hthree : k = 3 := by
      refine hk.resolve_right fun ⟨_, hshort⟩ => ?_
      rw [Reader.Short, hmode', ← hready.base] at hshort
      rcases hshort with h | h | h
      · exact hascii h
      · rw [h] at hstatic
        exact hstatic (by decide)
      · exact hactive h
    subst hthree
    exact ⟨_, wrote_three _ _ _ hroom, means_quoteUnicode hmode' _, List.cons_ne_nil _ _, le_rfl⟩
  · have hin := inWindow_iff.mp (findWindow_some hfind)
    have hquoted : c.reader.quoted i.val (a.iCode.toNat - c.iDynamicWindow i + 0x80) = a.iCode.toNat := by
      have hself : Fin.ofNat 8 i.val = i := Fin.ofNat_val_eq_self i
      rw [Reader.quoted, if_neg (by omega), hself]
      show c.iDynamicWindow i + _ = _
      omega
    exact ⟨_, wrote_two _ _ (by omega), means_quote hmode' i.isLt (by omega) hquoted, List.cons_ne_nil _ _, hle⟩

theorem writeCharacter_writes {a : TAction} {k : ℕ} (hready : c.Ready) (ha : a.Proper)
    (hk : k = 3 ∨ k = 2 ∧ c.reader.Short a) (hroom : c.iOutputBuffer.size + k ≤ 12) :
    Writes k c a (c.WriteCharacter a) := by
  unfold WriteCharacter
  by_cases hmode : c.iUnicodeMode = true
  · rw [if_pos hmode]
    exact writeUCharacter_writes hmode hk hroom
  · rw [if_neg hmode]
    exact writeSCharacter_writes hready ha (Bool.eq_false_iff.mpr hmode) hk hroom

/-! ### Steps -/

/-- From `c` to `c'`, with these characters taken and these bytes written. -/
structure Step (c c' : TUnicodeCompressor) (taken : List TAction) (bytes : Bytes) : Prop where
  input : c.iInputBuffer.toList = taken ++ c'.iInputBuffer.toList
  buffer : c'.iOutputBuffer.toList = c.iOutputBuffer.toList ++ bytes
  means : Means c.reader bytes (taken.map TAction.iCode) c'.reader
  ready : c'.Ready
  words : c'.iUnicodeWords = c.iUnicodeWords
  compressed : c'.iCompressedBytes = c.iCompressedBytes
  output : c'.iOutput = c.iOutput

theorem Step.refl (h : c.Ready) : Step c c [] [] :=
  ⟨rfl, (List.append_nil _).symm, .nil _, h, rfl, rfl, rfl⟩

theorem Step.trans {c c' c'' : TUnicodeCompressor} {t t' : List TAction} {a b : Bytes} (h : Step c c' t a)
    (h' : Step c' c'' t' b) : Step c c'' (t ++ t') (a ++ b) where
  input := by rw [h.input, h'.input, List.append_assoc]
  buffer := by rw [h'.buffer, h.buffer, List.append_assoc]
  means := by
    rw [List.map_append]
    exact h.means.trans h'.means
  ready := h'.ready
  words := h'.words.trans h.words
  compressed := h'.compressed.trans h.compressed
  output := h'.output.trans h.output

theorem Step.size {c c' : TUnicodeCompressor} {t : List TAction} {bytes : Bytes} (h : Step c c' t bytes) :
    c'.iOutputBuffer.size = c.iOutputBuffer.size + bytes.length := by
  rw [← RingBuffer.length_toList, h.buffer, List.length_append, RingBuffer.length_toList]

theorem Step.taken {c c' : TUnicodeCompressor} {t : List TAction} {bytes : Bytes} (h : Step c c' t bytes) :
    c.iInputBuffer.size = t.length + c'.iInputBuffer.size := by
  rw [← RingBuffer.length_toList, h.input, List.length_append, RingBuffer.length_toList]

theorem writeCharacterFromBuffer_step {a : TAction} {rest : List TAction} {k : ℕ}
    (hready : c.Ready) (hinput : c.iInputBuffer.toList = a :: rest) (hk : k = 3 ∨ k = 2 ∧ c.reader.Short a)
    (hroom : c.iOutputBuffer.size + k ≤ 12) :
    ∃ c' bytes, c.WriteCharacterFromBuffer = .ok c' ∧ Step c c' [a] bytes ∧ c'.reader = c.reader ∧ bytes ≠ [] ∧
      bytes.length ≤ k := by
  obtain ⟨-, hget, hpop⟩ := RingBuffer.toList_eq_cons hinput
  have hproper : ∀ b ∈ a :: rest, b.Proper := hinput ▸ hready.proper
  have hready' : { c with iInputBuffer := c.iInputBuffer.pop }.Ready := by
    refine ⟨hready.base, hready.windows, fun b hb => hproper b (List.mem_cons_of_mem _ ?_)⟩
    rw [← hpop]
    exact hb
  obtain ⟨bytes, ⟨buffer, hok, hbuffer⟩, hmeans, hne, hle⟩ :=
    writeCharacter_writes hready' (hproper a (List.mem_cons_self ..)) hk hroom
  have hcall : c.WriteCharacterFromBuffer = { c with iInputBuffer := c.iInputBuffer.pop }.WriteCharacter a := by
    rw [WriteCharacterFromBuffer, hget]
  refine ⟨_, bytes, hcall.trans hok, ?_, rfl, hne, hle⟩
  refine ⟨?_, hbuffer, hmeans, ⟨hready'.base, hready'.windows, hready'.proper⟩, rfl, rfl, rfl⟩
  rw [hinput, ← hpop]
  rfl

theorem writeCharactersFromBuffer_step (run : List TAction) : ∀ {c : TUnicodeCompressor} {rest : List TAction},
    c.Ready → c.iInputBuffer.toList = run ++ rest → (∀ a ∈ run, c.reader.Short a) →
    c.iOutputBuffer.size + 2 * run.length ≤ 12 →
    ∃ c' bytes, c.WriteCharactersFromBuffer run.length = .ok c' ∧ Step c c' run bytes ∧ c'.reader = c.reader ∧
      (run ≠ [] → bytes ≠ []) ∧ bytes.length ≤ 2 * run.length := by
  induction run with
  | nil =>
    intro c rest hready _ _ _
    exact ⟨c, [], rfl, .refl hready, rfl, fun h => absurd rfl h, le_rfl⟩
  | cons a run ih =>
    intro c rest hready hinput hshort hroom
    rw [List.length_cons] at hroom
    obtain ⟨c₁, bytes₁, hok₁, hstep₁, hreader₁, hne₁, hle₁⟩ := writeCharacterFromBuffer_step hready hinput
      (.inr ⟨rfl, hshort a (List.mem_cons_self ..)⟩) (by omega)
    have hrest : c₁.iInputBuffer.toList = run ++ rest := by
      have h := hstep₁.input
      rw [hinput] at h
      exact (List.cons.inj h).2.symm
    obtain ⟨c₂, bytes₂, hok₂, hstep₂, hreader₂, -, hle₂⟩ := ih hstep₁.ready hrest
      (fun b hb => by
        rw [hreader₁]
        exact hshort b (List.mem_cons_of_mem _ hb))
      (by rw [hstep₁.size]; omega)
    refine ⟨c₂, bytes₁ ++ bytes₂, ?_, hstep₁.trans hstep₂, hreader₂.trans hreader₁, fun _ h => ?_, ?_⟩
    · rw [List.length_cons, WriteCharactersFromBuffer, hok₁, run_ok_bind, hok₂]
    · exact hne₁ (List.append_eq_nil_iff.mp h).1
    · rw [List.length_append, List.length_cons]
      omega

theorem writeLeading_step (n : ℕ) : ∀ {c : TUnicodeCompressor}, c.Ready → c.iUnicodeMode = false →
    c.iInputBuffer.size = n → c.iOutputBuffer.size + 2 * n ≤ 12 →
    ∃ c' taken bytes, c.WriteLeading n = .ok c' ∧ Step c c' taken bytes ∧ c'.reader = c.reader ∧
      (taken ≠ [] → bytes ≠ []) ∧ bytes.length ≤ 2 * taken.length := by
  induction n with
  | zero => exact fun hready _ _ _ => ⟨_, [], [], rfl, .refl hready, rfl, fun h => absurd rfl h, le_rfl⟩
  | succ n ih =>
    intro c hready hmode hsize hroom
    obtain ⟨a, rest, hinput⟩ : ∃ a rest, c.iInputBuffer.toList = a :: rest :=
      List.exists_cons_of_length_eq_add_one (by rw [RingBuffer.length_toList, hsize])
    have hget := (RingBuffer.toList_eq_cons hinput).2.1
    unfold WriteLeading
    simp only [hget]
    by_cases hpass : a.iTreatment = EPlainASCII ∨ inWindow a.iCode.toNat c.iActiveWindowBase = true
    · have hmode' : ¬c.reader.iUnicodeMode = true := Bool.eq_false_iff.mp hmode
      have hshort : c.reader.Short a := by
        rw [Reader.Short, if_neg hmode', ← hready.base]
        exact hpass.imp_right .inr
      obtain ⟨c₁, bytes₁, hok₁, hstep₁, hreader₁, hne₁, hle₁⟩ := writeCharacterFromBuffer_step hready hinput
        (.inr ⟨rfl, hshort⟩) (by omega)
      have hsize₁ := hstep₁.taken
      have hbytes₁ := hstep₁.size
      rw [List.length_singleton] at hsize₁
      obtain ⟨c₂, taken, bytes₂, hok₂, hstep₂, hreader₂, -, hle₂⟩ := ih hstep₁.ready
        ((congrArg Reader.iUnicodeMode hreader₁).trans hmode) (by omega) (by omega)
      refine ⟨c₂, [a] ++ taken, bytes₁ ++ bytes₂, ?_, hstep₁.trans hstep₂, hreader₂.trans hreader₁, fun _ h => ?_, ?_⟩
      · rw [if_pos hpass, hok₁, run_ok_bind, hok₂]
      · exact hne₁ (List.append_eq_nil_iff.mp h).1
      · rw [List.length_append, List.length_append, List.length_singleton]
        omega
    · rw [if_neg hpass]
      exact ⟨c, [], [], rfl, .refl hready, rfl, fun h => absurd rfl h, Nat.zero_le _⟩

theorem proper_unicode {b : TAction} (hb : b.Proper) (h : b.iTreatment = EPlainUnicode) : b.iCode.toNat < 0xE000 := by
  rw [TAction.Proper] at hb
  rcases treatment_cases b.iCode with ⟨h', -⟩ | ⟨-, h'⟩ | ⟨-, h'⟩ | ⟨h', -⟩
  · rw [← hb, h] at h'
    exact absurd h' (by decide)
  · exact h'
  · omega
  · rw [← hb, h] at h'
    exact absurd h' (by decide)

theorem proper_static {b : TAction} (hb : b.Proper) (h : b.iTreatment = EFirstStatic) : b.iCode.toNat < 0x80 := by
  rw [TAction.Proper] at hb
  rcases treatment_cases b.iCode with ⟨h', -⟩ | ⟨h', -⟩ | ⟨-, h'⟩ | ⟨-, h', -⟩
  · rw [← hb, h] at h'
    exact absurd h' (by decide)
  · rw [← hb, h] at h'
    exact absurd h' (by decide)
  · exact h'
  · rw [← hb, h] at h'
    exact absurd h' (by decide)

theorem proper_dynamic {b : TAction} (hb : b.Proper) (h : 0 ≤ b.iTreatment) (h' : b.iTreatment ≤ 255) :
    inWindow b.iCode.toNat (DynamicWindowBase b.iTreatment) = true ∧ 0x80 ≤ DynamicWindowBase b.iTreatment := by
  have hb' : b.iTreatment = treatment b.iCode.toNat := hb
  rcases treatment_cases b.iCode with ⟨ht, -⟩ | ⟨ht, -⟩ | ⟨ht, -⟩ | ⟨-, -, hin, hbase⟩
  · rw [← hb'] at ht
    exact absurd (ht ▸ h) (by decide)
  · rw [← hb'] at ht
    exact absurd (ht ▸ h) (by decide)
  · rw [← hb'] at ht
    exact absurd (ht ▸ h') (by decide)
  · rw [hb']
    exact ⟨hin, hbase⟩

theorem select_found {base : ℕ} {i : Fin 8} (hready : c.Ready)
    (hfind : c.iDynamicWindow i = base) (hroom : c.iOutputBuffer.size + 2 ≤ 12) :
    ∃ buffer bytes, ((if c.iUnicodeMode then c.WriteByte (UC0 + i.val)
        else if i ≠ c.iDynamicWindowIndex then c.WriteByte (SC0 + i.val) else .ok c) : Run TUnicodeCompressor) =
        .ok { c with iOutputBuffer := buffer } ∧
      Step c { c with
        iOutputBuffer := buffer
        iUnicodeMode := false
        iDynamicWindowIndex := i
        iActiveWindowBase := base } [] bytes ∧ bytes.length ≤ 2 := by
  have hself : Fin.ofNat 8 i.val = i := Fin.ofNat_val_eq_self i
  have hmeans := means_select (s := c.reader) i.isLt
  rw [Reader.select, hself] at hmeans
  by_cases hmode : c.iUnicodeMode = true
  · have hmode' : c.reader.iUnicodeMode = true := hmode
    obtain ⟨buffer, hok, hbuffer⟩ := wrote_byte (c := c) (UC0 + i.val) (by omega)
    rw [if_pos hmode'] at hmeans
    refine ⟨buffer, _, by rw [if_pos hmode, hok], ⟨rfl, hbuffer, hmeans, ⟨hfind.symm, hready.windows, hready.proper⟩,
      rfl, rfl, rfl⟩, Nat.le_succ 1⟩
  · have hmode' : ¬c.reader.iUnicodeMode = true := hmode
    rw [if_neg hmode]
    by_cases hother : i ≠ c.iDynamicWindowIndex
    · obtain ⟨buffer, hok, hbuffer⟩ := wrote_byte (c := c) (SC0 + i.val) (by omega)
      rw [if_neg hmode'] at hmeans
      refine ⟨buffer, _, by rw [if_pos hother, hok], ⟨rfl, hbuffer, hmeans, ⟨hfind.symm, hready.windows, hready.proper⟩,
        rfl, rfl, rfl⟩, Nat.le_succ 1⟩
    · have hsame : i = c.iDynamicWindowIndex := not_not.mp hother
      have hreader : c.reader = ⟨false, c.iDynamicWindow, i⟩ := by
        rw [reader, hsame, Bool.eq_false_iff.mpr hmode]
      refine ⟨c.iOutputBuffer, [], by rw [if_neg hother], ⟨rfl, (List.append_nil _).symm, ?_,
        ⟨hfind.symm, hready.windows, hready.proper⟩, rfl, rfl, rfl⟩, Nat.zero_le _⟩
      rw [hreader]
      exact .nil _

theorem select_defined {t : ℤ} (hready : c.Ready) (h0 : 0 ≤ t) (h255 : t ≤ 255)
    (hbase : 0x80 ≤ DynamicWindowBase t) (hroom : c.iOutputBuffer.size + 2 ≤ 12) :
    ∃ buffer bytes, (c.WriteByte ((if c.iUnicodeMode then UD0 else SD0) + 4) >>= WriteByte t.toNat) =
        .ok { c with iOutputBuffer := buffer } ∧
      Step c { c with
        iOutputBuffer := buffer
        iUnicodeMode := false
        iDynamicWindowIndex := redefinedWindow
        iDynamicWindow := Function.update c.iDynamicWindow redefinedWindow (DynamicWindowBase t)
        iActiveWindowBase := DynamicWindowBase t } [] bytes ∧ bytes.length ≤ 2 := by
  obtain ⟨buffer, hok, hbuffer⟩ := wrote_two (c := c) ((if c.iUnicodeMode then UD0 else SD0) + 4) t.toNat hroom
  have hmeans := means_define (s := c.reader) (show 4 < 8 by omega) (show t.toNat < 256 by omega)
  rw [Reader.define, Int.toNat_of_nonneg h0] at hmeans
  refine ⟨buffer, _, hok, ⟨rfl, hbuffer, hmeans, ⟨?_, fun i => ?_, hready.proper⟩, rfl, rfl, rfl⟩, le_rfl⟩
  · exact (Function.update_self redefinedWindow (DynamicWindowBase t) c.iDynamicWindow).symm
  · show 0x80 ≤ Function.update c.iDynamicWindow redefinedWindow (DynamicWindowBase t) i
    by_cases hi : i = redefinedWindow
    · rw [hi, Function.update_self]
      exact hbase
    · rw [Function.update_of_ne hi]
      exact hready.windows i

/-- Selecting a treatment takes two bytes at most; its characters are short then. -/
theorem selectTreatment_step {a : TAction} (hready : c.Ready) (ha : a.Proper)
    (hroom : c.iOutputBuffer.size + 2 ≤ 12) :
    ∃ c' bytes, c.SelectTreatment a.iTreatment = .ok c' ∧ Step c c' [] bytes ∧ bytes.length ≤ 2 ∧
      ∀ b : TAction, b.Proper → b.iTreatment = a.iTreatment → c'.reader.Short b := by
  unfold SelectTreatment
  by_cases hunicode : a.iTreatment = EPlainUnicode
  · rw [if_pos hunicode, hunicode]
    by_cases hmode : c.iUnicodeMode = true
    · refine ⟨c, [], by rw [if_pos hmode], .refl hready, Nat.zero_le _, fun b hb h => ?_⟩
      have hmode' : c.reader.iUnicodeMode = true := hmode
      rw [Reader.Short, if_pos hmode']
      exact .inl (proper_unicode hb h)
    · obtain ⟨buffer, hok, hbuffer⟩ := wrote_byte (c := c) SCU (by omega)
      refine ⟨{ c with iOutputBuffer := buffer, iUnicodeMode := true }, _, by rw [if_neg hmode, hok]; rfl,
        ⟨rfl, hbuffer, means_unicodeMode (Bool.eq_false_iff.mpr hmode), ⟨hready.base, hready.windows, hready.proper⟩,
          rfl, rfl, rfl⟩, Nat.le_succ 1, fun b hb h => ?_⟩
      exact .inl (proper_unicode hb h)
  rw [if_neg hunicode]
  by_cases hascii : a.iTreatment = EPlainASCII
  · rw [if_pos hascii, hascii]
    by_cases hmode : c.iUnicodeMode = true
    · have hself : Fin.ofNat 8 c.iDynamicWindowIndex.val = c.iDynamicWindowIndex := Fin.ofNat_val_eq_self _
      have hmode' : c.reader.iUnicodeMode = true := hmode
      have hmeans := means_select (s := c.reader) c.iDynamicWindowIndex.isLt
      rw [Reader.select, hself, if_pos hmode'] at hmeans
      obtain ⟨buffer, hok, hbuffer⟩ := wrote_byte (c := c) (UC0 + c.iDynamicWindowIndex.val) (by omega)
      refine ⟨{ c with iOutputBuffer := buffer, iUnicodeMode := false }, _, by rw [if_pos hmode, hok]; rfl,
        ⟨rfl, hbuffer, hmeans, ⟨hready.base, hready.windows, hready.proper⟩, rfl, rfl, rfl⟩, Nat.le_succ 1,
        fun b _ h => ?_⟩
      exact .inl h
    · refine ⟨c, [], by rw [if_neg hmode], .refl hready, Nat.zero_le _, fun b _ h => ?_⟩
      have hmode' : ¬c.reader.iUnicodeMode = true := hmode
      rw [Reader.Short, if_neg hmode']
      exact .inl h
  rw [if_neg hascii]
  by_cases hdynamic : EFirstDynamic ≤ a.iTreatment ∧ a.iTreatment ≤ ELastDynamic
  · rw [if_pos hdynamic]
    obtain ⟨hin, hbase⟩ := proper_dynamic ha hdynamic.1 hdynamic.2
    have hshort : ∀ b : TAction, b.Proper → b.iTreatment = a.iTreatment → ∀ s : Reader, s.iUnicodeMode = false →
        s.base = DynamicWindowBase a.iTreatment → s.Short b := by
      intro b hb h s hmode hs
      rw [Reader.Short, hmode, hs, ← h]
      exact .inr (.inr (proper_dynamic hb (h ▸ hdynamic.1) (h ▸ hdynamic.2)).1)
    simp only
    rcases hfind : c.findWindow (DynamicWindowBase a.iTreatment == ·) with _ | i
    · obtain ⟨buffer, bytes, hok, hstep, hle⟩ := select_defined hready hdynamic.1 hdynamic.2 hbase hroom
      refine ⟨_, bytes, ?_, hstep, hle, fun b hb h => hshort b hb h _ rfl ?_⟩
      · simp only [← bind_assoc, hok]
        rfl
      · exact hstep.ready.base.symm
    · have hfound : c.iDynamicWindow i = DynamicWindowBase a.iTreatment := (beq_iff_eq.mp (findWindow_some hfind)).symm
      obtain ⟨buffer, bytes, hok, hstep, hle⟩ := select_found hready hfound hroom
      refine ⟨_, bytes, ?_, hstep, hle, fun b hb h => hshort b hb h _ rfl ?_⟩
      · simp only [hok]
        rfl
      · exact hstep.ready.base.symm
  · have hstatic : a.iTreatment = EFirstStatic := by
      have ha' : a.iTreatment = treatment a.iCode.toNat := ha
      rcases treatment_cases a.iCode with ⟨h, -⟩ | ⟨h, -⟩ | ⟨h, -⟩ | ⟨h, h', -⟩
      · exact absurd (ha'.trans h) hascii
      · exact absurd (ha'.trans h) hunicode
      · exact ha'.trans h
      · exact absurd (ha' ▸ ⟨h, h'⟩) hdynamic
    refine ⟨c, [], by rw [if_neg hdynamic], .refl hready, Nat.zero_le _, fun b hb h => ?_⟩
    rw [hstatic] at h
    by_cases hmode : c.reader.iUnicodeMode = true
    · rw [Reader.Short, if_pos hmode]
      have hlow := proper_static hb h
      omega
    · rw [Reader.Short, if_neg hmode]
      exact .inr (.inl h)

/-! ### Runs -/

theorem leading_step (hready : c.Ready) (hroom : c.iOutputBuffer.size + 2 * c.iInputBuffer.size ≤ 12) :
    ∃ c' taken bytes, (if c.iUnicodeMode then .ok c else c.WriteLeading c.iInputBuffer.size : Run _) = .ok c' ∧
      Step c c' taken bytes ∧ (taken ≠ [] → bytes ≠ []) ∧ bytes.length ≤ 2 * taken.length := by
  by_cases hmode : c.iUnicodeMode = true
  · exact ⟨c, [], [], if_pos hmode, .refl hready, fun h => absurd rfl h, le_rfl⟩
  · obtain ⟨c', taken, bytes, hok, hstep, -, hne, hle⟩ :=
      writeLeading_step _ hready (Bool.eq_false_iff.mpr hmode) rfl hroom
    exact ⟨c', taken, bytes, (if_neg hmode).trans hok, hstep, hne, hle⟩

/-- A run of one treatment is written and understood. -/
theorem run_step {a : TAction} {rest : List TAction} (hready : c.Ready)
    (hinput : c.iInputBuffer.toList = a :: rest) (hroom : c.iOutputBuffer.size + 2 * c.iInputBuffer.size + 2 ≤ 12) :
    ∃ c' taken bytes, ((if 1 < c.runSize then c.SelectTreatment (c.iInputBuffer.get 0).iTreatment else .ok c) >>=
        WriteCharactersFromBuffer c.runSize) = .ok c' ∧ Step c c' taken bytes ∧ taken ≠ [] ∧ bytes ≠ [] := by
  have hget := (RingBuffer.toList_eq_cons hinput).2.1
  have hsize : c.iInputBuffer.size = rest.length + 1 := by
    rw [← RingBuffer.length_toList, hinput, List.length_cons]
  have ha : a.Proper := hready.proper a (by rw [hinput]; exact List.mem_cons_self ..)
  set run := c.iInputBuffer.toList.takeWhile fun action => action.iTreatment == a.iTreatment with hrun
  have hrunSize : c.runSize = run.length := by rw [runSize, hget]
  have hcons : run = a :: rest.takeWhile fun action => action.iTreatment == a.iTreatment := by
    rw [hrun, hinput, List.takeWhile_cons, if_pos (beq_self_eq_true _)]
  have hsplit : c.iInputBuffer.toList =
      run ++ c.iInputBuffer.toList.dropWhile fun action => action.iTreatment == a.iTreatment :=
    List.takeWhile_append_dropWhile.symm
  have hlen : run.length ≤ c.iInputBuffer.size := by
    rw [← RingBuffer.length_toList, hsplit, List.length_append]
    exact Nat.le_add_right _ _
  have hsame : ∀ b ∈ run, b.Proper ∧ b.iTreatment = a.iTreatment := by
    intro b hb
    refine ⟨hready.proper b (by rw [hsplit]; exact List.mem_append_left _ hb), ?_⟩
    have htreatment : (b.iTreatment == a.iTreatment) = true :=
      List.mem_takeWhile_imp (p := fun action : TAction => action.iTreatment == a.iTreatment) hb
    exact beq_iff_eq.mp htreatment
  rw [hrunSize, hget]
  by_cases hlong : 1 < run.length
  · obtain ⟨c₁, bytes₁, hok₁, hstep₁, hle₁, hshort⟩ := selectTreatment_step hready ha (by omega)
    have hinput₁ : c₁.iInputBuffer.toList = run ++ c.iInputBuffer.toList.dropWhile fun action =>
        action.iTreatment == a.iTreatment := hstep₁.input.symm.trans hsplit
    obtain ⟨c₂, bytes₂, hok₂, hstep₂, -, hne₂, -⟩ := writeCharactersFromBuffer_step run hstep₁.ready hinput₁
      (fun b hb => hshort b (hsame b hb).1 (hsame b hb).2) (by rw [hstep₁.size]; omega)
    have hne : run ≠ [] := List.ne_nil_of_length_pos (by omega)
    refine ⟨c₂, [] ++ run, bytes₁ ++ bytes₂, ?_, hstep₁.trans hstep₂, hne, fun h => ?_⟩
    · rw [if_pos hlong, hok₁, run_ok_bind, hok₂]
    · exact hne₂ hne (List.append_eq_nil_iff.mp h).2
  · have hone : run.length = 1 := by
      rw [hcons, List.length_cons] at hlong ⊢
      omega
    obtain ⟨c', bytes, hok, hstep, -, hne, -⟩ := writeCharacterFromBuffer_step hready hinput (.inl rfl) (by omega)
    refine ⟨c', [a], bytes, ?_, hstep, List.cons_ne_nil _ _, hne⟩
    rw [if_neg hlong, run_ok_bind, hone, WriteCharactersFromBuffer, hok]
    rfl

/-- **A run.**  With an empty queue of bytes the characters of a run fit, and at least one is written. -/
theorem writeRun_step (hready : c.Ready) (hempty : c.iOutputBuffer.size = 0) (hfour : c.iInputBuffer.size ≤ 4) :
    ∃ c' taken bytes, c.WriteRun = .ok c' ∧ Step c c' taken bytes ∧
      (0 < c.iInputBuffer.size → taken ≠ [] ∧ bytes ≠ []) := by
  obtain ⟨c₁, taken₁, bytes₁, hok₁, hstep₁, hne₁, hle₁⟩ := leading_step hready (by omega)
  have htaken₁ := hstep₁.taken
  have hbytes₁ := hstep₁.size
  unfold WriteRun
  rw [hok₁, run_ok_bind]
  by_cases hmore : 0 < c₁.iInputBuffer.size
  · obtain ⟨a, rest, hinput⟩ : ∃ a rest, c₁.iInputBuffer.toList = a :: rest :=
      List.exists_cons_of_length_pos (by rwa [RingBuffer.length_toList])
    obtain ⟨c₂, taken₂, bytes₂, hok₂, hstep₂, htaken₂, hne₂⟩ := run_step hstep₁.ready hinput (by omega)
    refine ⟨c₂, taken₁ ++ taken₂, bytes₁ ++ bytes₂, ?_, hstep₁.trans hstep₂, fun _ => ⟨fun h => ?_, fun h => ?_⟩⟩
    · rw [if_pos hmore]
      exact hok₂
    · exact htaken₂ (List.append_eq_nil_iff.mp h).2
    · exact hne₂ (List.append_eq_nil_iff.mp h).2
  · refine ⟨c₁, taken₁, bytes₁, if_neg hmore, hstep₁, fun hpos => ?_⟩
    have htaken : taken₁ ≠ [] := List.ne_nil_of_length_pos (by omega)
    exact ⟨htaken, hne₁ htaken⟩

end TUnicodeCompressor

end GnuPoc.Rcomp
