import GnuPoc.Rcomp.UnicodeRun

/-!
# GnuPoc.Rcomp.UnicodeCost — how many bytes a run costs

The bytes of characters as a function of the reader and of the characters that wait, without the queues: what a
character costs in a mode and with windows, what it costs to select a treatment, and what a look-ahead of four
costs.  A run of the compressor writes as many bytes as that.
-/

namespace GnuPoc.Rcomp

open GnuPoc.Lib

/-! ### Costs -/

namespace Reader

/-- The bytes of a character, without a change of mode or window. -/
def cost (s : Reader) (a : TAction) : ℕ :=
  let aCode := a.iCode.toNat
  if s.iUnicodeMode then if 0xE000 ≤ aCode ∧ aCode ≤ 0xF2FF then 3 else 2
  else if a.iTreatment = EPlainASCII then 1
  else if EFirstStatic ≤ a.iTreatment ∧ a.iTreatment ≤ ELastStatic then 2
  else if inWindow aCode s.base then 1
  else if ∃ i, inWindow aCode (s.iDynamicWindow i) = true then 2
  else 3

def costs (s : Reader) (as : List TAction) : ℕ := (as.map s.cost).sum

/-- The reader for a treatment, and the bytes that bring it there. -/
def selected (s : Reader) (aTreatment : ℤ) : Reader × ℕ :=
  if aTreatment = EPlainUnicode then ({ s with iUnicodeMode := true }, if s.iUnicodeMode then 0 else 1)
  else if aTreatment = EPlainASCII then ({ s with iUnicodeMode := false }, if s.iUnicodeMode then 1 else 0)
  else if EFirstDynamic ≤ aTreatment ∧ aTreatment ≤ ELastDynamic then
    match (List.finRange 8).find? fun i => DynamicWindowBase aTreatment == s.iDynamicWindow i with
    | some i => (⟨false, s.iDynamicWindow, i⟩, if s.iUnicodeMode ∨ i ≠ s.iDynamicWindowIndex then 1 else 0)
    | none =>
      (⟨false, Function.update s.iDynamicWindow redefinedWindow (DynamicWindowBase aTreatment), redefinedWindow⟩, 2)
  else (s, 0)

/-- In single-byte mode a character that needs no change of window. -/
def passes (s : Reader) (a : TAction) : Bool :=
  !s.iUnicodeMode && (a.iTreatment == EPlainASCII || inWindow a.iCode.toNat s.base)

/-- What a run leaves: the reader, and the characters that still wait. -/
structure AfterRun where
  reader : Reader
  bytes : ℕ
  queue : List TAction

/-- A run of the characters that wait: those that pass, and the ones of one treatment behind them. -/
def run (s : Reader) (queue : List TAction) : AfterRun :=
  match queue.dropWhile s.passes with
  | [] => ⟨s, s.costs (queue.takeWhile s.passes), []⟩
  | a :: rest =>
    let same := (a :: rest).takeWhile fun b => b.iTreatment == a.iTreatment
    let selection := if 1 < same.length then s.selected a.iTreatment else (s, 0)
    ⟨selection.1, s.costs (queue.takeWhile s.passes) + (selection.2 + selection.1.costs same),
      (a :: rest).dropWhile fun b => b.iTreatment == a.iTreatment⟩

/-- A character joins the look-ahead of four; a full one loses a run. -/
def read (s : Reader) (queue : List TAction) (x : UInt16) : AfterRun :=
  if queue.length + 1 = EMaxInputBufferSize then s.run (queue ++ [.ofCode x]) else ⟨s, 0, queue ++ [.ofCode x]⟩

/-- The bytes of the characters that leave the look-ahead while these are read. -/
def readCost (s : Reader) (queue : List TAction) : List UInt16 → ℕ
  | [] => 0
  | x :: xs => (s.read queue x).bytes + readCost (s.read queue x).reader (s.read queue x).queue xs

theorem costs_cons (s : Reader) (a : TAction) (as : List TAction) : s.costs (a :: as) = s.cost a + s.costs as := rfl

end Reader

/-! ### What the compressor spends -/

namespace TUnicodeCompressor

/-- From `c` to `c'`, with the reader `s` and the queue `q` behind it, and `k` bytes more in the queue of bytes. -/
structure Spends (c c' : TUnicodeCompressor) (s : Reader) (q : List TAction) (k : ℕ) : Prop where
  reader : c'.reader = s
  base : c'.iActiveWindowBase = s.base
  queue : c'.iInputBuffer.toList = q
  size : c'.iOutputBuffer.size = c.iOutputBuffer.size + k
  output : c'.iOutput = c.iOutput
  compressed : c'.iCompressedBytes = c.iCompressedBytes
  words : c'.iUnicodeWords = c.iUnicodeWords

theorem Spends.refl {c : TUnicodeCompressor} (h : c.iActiveWindowBase = c.reader.base) :
    Spends c c c.reader c.iInputBuffer.toList 0 := ⟨rfl, h, rfl, rfl, rfl, rfl, rfl⟩

theorem Spends.trans {c c' c'' : TUnicodeCompressor} {s s' : Reader} {q q' : List TAction} {k k' : ℕ}
    (h : Spends c c' s q k) (h' : Spends c' c'' s' q' k') : Spends c c'' s' q' (k + k') where
  reader := h'.reader
  base := h'.base
  queue := h'.queue
  size := by rw [h'.size, h.size, Nat.add_assoc]
  output := h'.output.trans h.output
  compressed := h'.compressed.trans h.compressed
  words := h'.words.trans h.words

section
variable {c c' : TUnicodeCompressor}

theorem writeByte_spends {n : ℕ} (hbase : c.iActiveWindowBase = c.reader.base) (h : c.WriteByte n = .ok c') :
    Spends c c' c.reader c.iInputBuffer.toList 1 := by
  unfold WriteByte at h
  split at h
  case isTrue => cases h
  case isFalse =>
    obtain rfl := Except.ok.inj h
    exact ⟨rfl, hbase, rfl, rfl, rfl, rfl, rfl⟩

theorem writeByte_bind_spends {n k : ℕ} {f : TUnicodeCompressor → Run TUnicodeCompressor}
    (hbase : c.iActiveWindowBase = c.reader.base) (h : c.WriteByte n >>= f = .ok c')
    (hf : ∀ c₁ : TUnicodeCompressor, c₁.iActiveWindowBase = c₁.reader.base → f c₁ = .ok c' →
      Spends c₁ c' c₁.reader c₁.iInputBuffer.toList k) :
    Spends c c' c.reader c.iInputBuffer.toList (1 + k) := by
  obtain ⟨c₁, hbyte, hrest⟩ := bind_eq_ok.mp h
  have hfirst := writeByte_spends hbase hbyte
  have hbase₁ : c₁.iActiveWindowBase = c₁.reader.base := by rw [hfirst.base, hfirst.reader]
  have hlast := hf c₁ hbase₁ hrest
  rw [hfirst.reader, hfirst.queue] at hlast
  exact hfirst.trans hlast

theorem writeTwo_spends {m n : ℕ} (hbase : c.iActiveWindowBase = c.reader.base)
    (h : c.WriteByte m >>= WriteByte n = .ok c') : Spends c c' c.reader c.iInputBuffer.toList 2 :=
  writeByte_bind_spends hbase h fun _ => writeByte_spends

theorem writeThree_spends {l m n : ℕ} (hbase : c.iActiveWindowBase = c.reader.base)
    (h : c.WriteByte l >>= (fun c => c.WriteByte m >>= WriteByte n) = .ok c') :
    Spends c c' c.reader c.iInputBuffer.toList 3 :=
  writeByte_bind_spends hbase h fun _ => writeTwo_spends

theorem findWindow_none {p : ℕ → Bool} : c.findWindow p = none ↔ ¬∃ i, p (c.iDynamicWindow i) = true := by
  rw [findWindow, List.find?_eq_none, not_exists]
  exact ⟨fun h i => h i (List.mem_finRange i), fun h i _ => h i⟩

theorem writeCharacter_spends {a : TAction} (hbase : c.iActiveWindowBase = c.reader.base)
    (h : c.WriteCharacter a = .ok c') : Spends c c' c.reader c.iInputBuffer.toList (c.reader.cost a) := by
  unfold WriteCharacter at h
  unfold Reader.cost
  by_cases hmode : c.iUnicodeMode = true
  · have hmode' : c.reader.iUnicodeMode = true := hmode
    rw [if_pos hmode] at h
    rw [if_pos hmode']
    unfold WriteUCharacter at h
    by_cases htag : 0xE000 ≤ a.iCode.toNat ∧ a.iCode.toNat ≤ 0xF2FF
    · rw [if_pos htag] at h ⊢
      exact writeThree_spends hbase h
    · rw [if_neg htag] at h ⊢
      exact writeTwo_spends hbase h
  · have hmode' : ¬c.reader.iUnicodeMode = true := hmode
    rw [if_neg hmode] at h
    rw [if_neg hmode']
    unfold WriteSCharacter at h
    simp only at h
    by_cases hascii : a.iTreatment = EPlainASCII
    · rw [if_pos hascii] at h ⊢
      exact writeByte_spends hbase h
    rw [if_neg hascii] at h ⊢
    by_cases hstatic : EFirstStatic ≤ a.iTreatment ∧ a.iTreatment ≤ ELastStatic
    · rw [if_pos hstatic] at h ⊢
      exact writeTwo_spends hbase h
    rw [if_neg hstatic] at h ⊢
    by_cases hactive : inWindow a.iCode.toNat c.iActiveWindowBase = true
    · rw [if_pos hactive] at h
      rw [hbase] at hactive
      rw [if_pos hactive]
      exact writeByte_spends hbase h
    rw [if_neg hactive] at h
    rw [hbase] at hactive
    rw [if_neg hactive]
    rcases hfind : c.findWindow (inWindow a.iCode.toNat) with _ | i
    · have hnone : ¬∃ i, inWindow a.iCode.toNat (c.reader.iDynamicWindow i) = true := findWindow_none.mp hfind
      simp only [hfind] at h
      rw [if_neg hnone]
      exact writeThree_spends hbase h
    · have hsome : ∃ i, inWindow a.iCode.toNat (c.reader.iDynamicWindow i) = true := ⟨i, findWindow_some hfind⟩
      simp only [hfind] at h
      rw [if_pos hsome]
      exact writeTwo_spends hbase h

theorem writeCharacterFromBuffer_spends {a : TAction} {rest : List TAction}
    (hbase : c.iActiveWindowBase = c.reader.base) (hinput : c.iInputBuffer.toList = a :: rest)
    (h : c.WriteCharacterFromBuffer = .ok c') : Spends c c' c.reader rest (c.reader.cost a) := by
  obtain ⟨-, hget, hpop⟩ := RingBuffer.toList_eq_cons hinput
  rw [WriteCharacterFromBuffer, hget] at h
  obtain ⟨hreader, hbase', hqueue, hsize, houtput, hcompressed, hwords⟩ :=
    writeCharacter_spends (c := { c with iInputBuffer := c.iInputBuffer.pop }) hbase h
  exact ⟨hreader, hbase', hqueue.trans hpop, hsize, houtput, hcompressed, hwords⟩

end

theorem passes_iff {c : TUnicodeCompressor} {a : TAction} (hbase : c.iActiveWindowBase = c.reader.base)
    (hmode : c.iUnicodeMode = false) : c.reader.passes a = true ↔
      a.iTreatment = EPlainASCII ∨ inWindow a.iCode.toNat c.iActiveWindowBase = true := by
  have hmode' : c.reader.iUnicodeMode = false := hmode
  rw [Reader.passes, hmode', Bool.not_false, Bool.true_and, Bool.or_eq_true, beq_iff_eq, hbase]

theorem writeLeading_spends (n : ℕ) : ∀ {c c' : TUnicodeCompressor}, c.iActiveWindowBase = c.reader.base →
    c.iUnicodeMode = false → c.iInputBuffer.size = n → c.WriteLeading n = .ok c' →
    Spends c c' c.reader (c.iInputBuffer.toList.dropWhile c.reader.passes)
      (c.reader.costs (c.iInputBuffer.toList.takeWhile c.reader.passes)) := by
  induction n with
  | zero =>
    intro c c' hbase _ hsize h
    obtain rfl := Except.ok.inj h
    have hnil := RingBuffer.toList_of_size_eq_zero hsize
    have hrefl := Spends.refl hbase
    rwa [hnil] at hrefl ⊢
  | succ n ih =>
    intro c c' hbase hmode hsize h
    obtain ⟨a, rest, hinput⟩ : ∃ a rest, c.iInputBuffer.toList = a :: rest :=
      List.exists_cons_of_length_eq_add_one (by rw [RingBuffer.length_toList, hsize])
    have hget := (RingBuffer.toList_eq_cons hinput).2.1
    unfold WriteLeading at h
    simp only [hget] at h
    have hiff := passes_iff (a := a) hbase hmode
    rw [hinput, List.dropWhile_cons, List.takeWhile_cons]
    by_cases hpass : a.iTreatment = EPlainASCII ∨ inWindow a.iCode.toNat c.iActiveWindowBase = true
    · rw [if_pos hpass] at h
      rw [if_pos (hiff.mpr hpass), if_pos (hiff.mpr hpass), Reader.costs_cons]
      obtain ⟨c₁, hfirst, hrest⟩ := bind_eq_ok.mp h
      have hstep := writeCharacterFromBuffer_spends hbase hinput hfirst
      have hbase₁ : c₁.iActiveWindowBase = c₁.reader.base := by rw [hstep.base, hstep.reader]
      have hsize₁ : c₁.iInputBuffer.size = n := by
        have hlen := congrArg List.length hstep.queue
        have hlen' := congrArg List.length hinput
        rw [RingBuffer.length_toList] at hlen hlen'
        rw [List.length_cons] at hlen'
        omega
      have hmode₁ : c₁.iUnicodeMode = false := (congrArg Reader.iUnicodeMode hstep.reader).trans hmode
      have hlast := ih hbase₁ hmode₁ hsize₁ hrest
      rw [hstep.reader, hstep.queue] at hlast
      exact hstep.trans hlast
    · rw [if_neg hpass] at h
      rw [if_neg (mt hiff.mp hpass), if_neg (mt hiff.mp hpass), ← hinput]
      obtain rfl := Except.ok.inj h
      exact .refl hbase

theorem writeCharactersFromBuffer_spends (run : List TAction) : ∀ {c c' : TUnicodeCompressor} {rest : List TAction},
    c.iActiveWindowBase = c.reader.base → c.iInputBuffer.toList = run ++ rest →
    c.WriteCharactersFromBuffer run.length = .ok c' → Spends c c' c.reader rest (c.reader.costs run) := by
  induction run with
  | nil =>
    intro c c' rest hbase hinput h
    obtain rfl := Except.ok.inj h
    have hrefl := Spends.refl hbase
    rwa [hinput] at hrefl
  | cons a run ih =>
    intro c c' rest hbase hinput h
    obtain ⟨c₁, hfirst, hrest⟩ := bind_eq_ok.mp h
    have hstep := writeCharacterFromBuffer_spends hbase hinput hfirst
    have hbase₁ : c₁.iActiveWindowBase = c₁.reader.base := by rw [hstep.base, hstep.reader]
    have hlast := ih hbase₁ hstep.queue hrest
    rw [hstep.reader] at hlast
    rw [Reader.costs_cons]
    exact hstep.trans hlast

theorem Spends.change {c c₁ c₂ : TUnicodeCompressor} {s : Reader} {q : List TAction} {k : ℕ} (h : Spends c c₁ s q k)
    (f : Reader → Reader) (hreader : c₂.reader = f c₁.reader) (hbase : c₂.iActiveWindowBase = (f s).base)
    (hsame : c₂.iInputBuffer = c₁.iInputBuffer ∧ c₂.iOutputBuffer = c₁.iOutputBuffer ∧ c₂.iOutput = c₁.iOutput ∧
      c₂.iCompressedBytes = c₁.iCompressedBytes ∧ c₂.iUnicodeWords = c₁.iUnicodeWords) :
    Spends c c₂ (f s) q k := by
  obtain ⟨hinput, hbuffer, houtput, hcompressed, hwords⟩ := hsame
  refine ⟨?_, hbase, ?_, ?_, houtput.trans h.output, hcompressed.trans h.compressed, hwords.trans h.words⟩
  · rw [hreader, h.reader]
  · rw [hinput, h.queue]
  · rw [hbuffer, h.size]

theorem Spends.switch {c c₁ : TUnicodeCompressor} {q : List TAction} {k : ℕ} (h : Spends c c₁ c.reader q k)
    (mode : Bool) : Spends c { c₁ with iUnicodeMode := mode } { c.reader with iUnicodeMode := mode } q k :=
  h.change (fun s => { s with iUnicodeMode := mode }) rfl h.base ⟨rfl, rfl, rfl, rfl, rfl⟩

section
variable {c c' : TUnicodeCompressor}

theorem Spends.stay (hbase : c.iActiveWindowBase = c.reader.base) {mode : Bool} (hmode : c.iUnicodeMode = mode) :
    Spends c c { c.reader with iUnicodeMode := mode } c.iInputBuffer.toList 0 := by
  subst hmode
  exact .refl hbase

/-- Selecting a treatment costs what the reader would charge. -/
theorem selectTreatment_spends {t : ℤ} (hbase : c.iActiveWindowBase = c.reader.base)
    (h : c.SelectTreatment t = .ok c') :
    Spends c c' (c.reader.selected t).1 c.iInputBuffer.toList (c.reader.selected t).2 := by
  unfold SelectTreatment at h
  unfold Reader.selected
  by_cases hunicode : t = EPlainUnicode
  · rw [if_pos hunicode] at h ⊢
    by_cases hmode : c.iUnicodeMode = true
    · have hmode' : c.reader.iUnicodeMode = true := hmode
      rw [if_pos hmode] at h
      obtain rfl := Except.ok.inj h
      rw [if_pos hmode']
      exact .stay hbase hmode
    · have hmode' : ¬c.reader.iUnicodeMode = true := hmode
      rw [if_neg hmode] at h
      obtain ⟨c₁, hbyte, hrest⟩ := bind_eq_ok.mp h
      obtain rfl := Except.ok.inj hrest
      rw [if_neg hmode']
      exact (writeByte_spends hbase hbyte).switch true
  rw [if_neg hunicode] at h ⊢
  by_cases hascii : t = EPlainASCII
  · rw [if_pos hascii] at h ⊢
    by_cases hmode : c.iUnicodeMode = true
    · have hmode' : c.reader.iUnicodeMode = true := hmode
      rw [if_pos hmode] at h
      obtain ⟨c₁, hbyte, hrest⟩ := bind_eq_ok.mp h
      obtain rfl := Except.ok.inj hrest
      rw [if_pos hmode']
      exact (writeByte_spends hbase hbyte).switch false
    · have hmode' : ¬c.reader.iUnicodeMode = true := hmode
      rw [if_neg hmode] at h
      obtain rfl := Except.ok.inj h
      rw [if_neg hmode']
      exact .stay hbase (Bool.eq_false_iff.mpr hmode)
  rw [if_neg hascii] at h ⊢
  by_cases hdynamic : EFirstDynamic ≤ t ∧ t ≤ ELastDynamic
  swap
  · rw [if_neg hdynamic] at h ⊢
    obtain rfl := Except.ok.inj h
    exact .refl hbase
  rw [if_pos hdynamic] at h ⊢
  simp only at h
  have hsame : ((List.finRange 8).find? fun i => DynamicWindowBase t == c.reader.iDynamicWindow i) =
    c.findWindow (DynamicWindowBase t == ·) := rfl
  rw [hsame]
  rcases hfind : c.findWindow (DynamicWindowBase t == ·) with _ | i
  · simp only [hfind] at h
    obtain ⟨c₁, hfirst, h⟩ := bind_eq_ok.mp h
    obtain ⟨c₂, hsecond, h⟩ := bind_eq_ok.mp h
    obtain rfl := Except.ok.inj h
    have hstep := writeTwo_spends hbase (bind_eq_ok.mpr ⟨c₁, hfirst, hsecond⟩)
    exact hstep.change
      (fun s => ⟨false, Function.update s.iDynamicWindow redefinedWindow (DynamicWindowBase t), redefinedWindow⟩)
      rfl (Function.update_self redefinedWindow _ c.iDynamicWindow).symm ⟨rfl, rfl, rfl, rfl, rfl⟩
  · have hfound : DynamicWindowBase t = c.iDynamicWindow i := beq_iff_eq.mp (findWindow_some hfind)
    simp only [hfind] at h
    obtain ⟨c₁, hbyte, hrest⟩ := bind_eq_ok.mp h
    obtain rfl := Except.ok.inj hrest
    have hstep : Spends c c₁ c.reader c.iInputBuffer.toList
        (if c.iUnicodeMode = true ∨ i ≠ c.iDynamicWindowIndex then 1 else 0) := by
      by_cases hmode : c.iUnicodeMode = true
      · rw [if_pos hmode] at hbyte
        rw [if_pos (.inl hmode)]
        exact writeByte_spends hbase hbyte
      rw [if_neg hmode] at hbyte
      by_cases hother : i ≠ c.iDynamicWindowIndex
      · rw [if_pos hother] at hbyte
        rw [if_pos (.inr hother)]
        exact writeByte_spends hbase hbyte
      · rw [if_neg hother] at hbyte
        rw [if_neg (not_or.mpr ⟨hmode, hother⟩)]
        obtain rfl := Except.ok.inj hbyte
        exact .refl hbase
    exact hstep.change (fun s => ⟨false, s.iDynamicWindow, i⟩) rfl hfound ⟨rfl, rfl, rfl, rfl, rfl⟩

/-- **A run writes what it costs**, and leaves the reader and the queue as the costs say. -/
theorem writeRun_spends (hbase : c.iActiveWindowBase = c.reader.base) (h : c.WriteRun = .ok c') :
    Spends c c' (c.reader.run c.iInputBuffer.toList).reader (c.reader.run c.iInputBuffer.toList).queue
      (c.reader.run c.iInputBuffer.toList).bytes := by
  obtain ⟨c₁, hleading, h⟩ := bind_eq_ok.mp h
  have hstep : Spends c c₁ c.reader (c.iInputBuffer.toList.dropWhile c.reader.passes)
      (c.reader.costs (c.iInputBuffer.toList.takeWhile c.reader.passes)) := by
    by_cases hmode : c.iUnicodeMode = true
    · rw [if_pos hmode] at hleading
      obtain rfl := Except.ok.inj hleading
      have hnone : ∀ a, c.reader.passes a = false := by
        intro a
        have hmode' : c.reader.iUnicodeMode = true := hmode
        rw [Reader.passes, hmode', Bool.not_true, Bool.false_and]
      have hrefl := Spends.refl hbase
      cases hinput : c.iInputBuffer.toList with
      | nil => rwa [hinput] at hrefl
      | cons a rest =>
        rw [List.dropWhile_cons, List.takeWhile_cons, hnone a]
        rwa [hinput] at hrefl
    · rw [if_neg hmode] at hleading
      exact writeLeading_spends _ hbase (Bool.eq_false_iff.mpr hmode) rfl hleading
  have hbase₁ : c₁.iActiveWindowBase = c₁.reader.base := by rw [hstep.base, hstep.reader]
  have hqueue := hstep.queue
  unfold Reader.run
  rcases hrest : c.iInputBuffer.toList.dropWhile c.reader.passes with - | ⟨a, rest⟩
  · rw [hrest] at hqueue hstep
    have hnone : ¬0 < c₁.iInputBuffer.size := by
      rw [← RingBuffer.length_toList, hqueue, List.length_nil]
      exact lt_irrefl 0
    rw [if_neg hnone] at h
    obtain rfl := Except.ok.inj h
    exact hstep
  · rw [hrest] at hqueue hstep
    obtain ⟨hpos, hget, -⟩ := RingBuffer.toList_eq_cons hqueue
    set same := (a :: rest).takeWhile fun b => b.iTreatment == a.iTreatment with hsame
    have hrun : c₁.runSize = same.length := by rw [runSize, hget, hqueue]
    have hsplit : a :: rest = same ++ (a :: rest).dropWhile fun b => b.iTreatment == a.iTreatment :=
      List.takeWhile_append_dropWhile.symm
    rw [if_pos hpos] at h
    simp only [hrun, hget] at h
    obtain ⟨c₂, hselect, h⟩ := bind_eq_ok.mp h
    set selection := if 1 < same.length then c.reader.selected a.iTreatment else (c.reader, 0) with hselection
    have hselected : Spends c₁ c₂ selection.1 (a :: rest) selection.2 := by
      rw [← hqueue, hselection, ← hstep.reader]
      by_cases hlong : 1 < same.length
      · rw [if_pos hlong] at hselect ⊢
        exact selectTreatment_spends hbase₁ hselect
      · rw [if_neg hlong] at hselect ⊢
        obtain rfl := Except.ok.inj hselect
        exact .refl hbase₁
    have hbase₂ : c₂.iActiveWindowBase = c₂.reader.base := by rw [hselected.base, hselected.reader]
    have hwritten := writeCharactersFromBuffer_spends same hbase₂ (hselected.queue.trans hsplit) h
    rw [hselected.reader] at hwritten
    exact hstep.trans (hselected.trans hwritten)

end

end TUnicodeCompressor

end GnuPoc.Rcomp
