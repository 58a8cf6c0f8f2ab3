import GnuPoc.Crtsis.HostOrder
import GnuPoc.Crtsis.Inputs
import GnuPoc.Pkg.Utf8

/-!
# GnuPoc.Crtsis.TextEncoding — what a PKG or text file is read as (`utils.cpp`, `makesis.cpp`)

A text should be read as its little-endian units, and anything else be an error.  But the test of the encoding takes a
mark of four bytes, of which a text in UTF-16 has only two, and the conversion from UTF-8 writes its whole buffer: the
contents that come out are few.
-/

namespace GnuPoc.Crtsis

open GnuPoc.Lib
open GnuPoc.Pkg (utf8 utf16 utf16Char lenientChar)

/-! ### Texts -/

/-- The bytes of a text in UTF-16. -/
def utf16Bytes (o : ByteOrder) (text : List Char) : Bytes := (utf16 text).flatMap o.bytes16

/-- A content that is a text: in UTF-8, or in UTF-16 with a byte order mark, which is the first character. -/
def IsText (bytes : Bytes) (text : List Char) : Prop :=
  bytes = utf8 text ∨ ∃ o rest, text = Char.ofNat 0xfeff :: rest ∧ bytes = utf16Bytes o text

/-- A text is read as its little-endian units, and anything else is an error. -/
structure Fulfils (env : Env) (fileName : WString) (s : State) (bytes : Bytes) : Prop where
  text : ∀ text, IsText bytes text → ∃ used s', sourceFileUsed env fileName s = (.ok used, s') ∧
    s'.disk (sisFile env used.1) = some (utf16Bytes .little text)
  other : (∀ text, ¬ IsText bytes text) → ∃ e, (sourceFileUsed env fileName s).1 = .error e ∧ e ≠ .undefined ∧
    e ≠ .forever

/-- Legal sequences of UTF-8, and then one that the end of the file cuts off. -/
inductive Truncated : Bytes → Prop
  | last {b : UInt8} {rest : Bytes} : rest.length < trailingBytesForUTF8 b → Truncated (b :: rest)
  | next {b : UInt8} {trailing rest : Bytes} : trailing.length = trailingBytesForUTF8 b → isLegalUTF8 b trailing →
    Truncated rest → Truncated (b :: (trailing ++ rest))

/-- The mark that is taken for the one of little-endian units, in the order of the host. -/
def markLittle (o : ByteOrder) : Bytes := o.arrange [0xff, 0xfe, 0, 0]

def markBig (o : ByteOrder) : Bytes := o.arrange [0xfe, 0xff, 0, 0]

/-- A character whose units come out: the two reserved values are replaced, and a big-endian host exchanges the bytes of
every unit. -/
def KeptChar : ByteOrder → Char → Prop
  | .little, c => c.val.toNat ≠ 0xfffe ∧ c.val.toNat ≠ 0xffff
  | .big, c => c.val.toNat ≠ 0xffff ∧ ∀ u ∈ utf16Char c, EqualBytes u

/-- A text in UTF-8 whose units fill just what is written, which is four bytes for each of the file, as a `DWORD`. -/
structure FilledText (o : ByteOrder) (bytes : Bytes) : Prop where
  read : bytes.length ≤ 0x7ffff000
  utf8 : ∃ text, bytes = utf8 text
  filled : ∀ text, bytes = Pkg.utf8 text → transferred (4 * bytes.length % 2 ^ 32) = 2 * (utf16 text).length
  kept : ∀ text, bytes = Pkg.utf8 text → ∀ c ∈ text, KeptChar o c

/-- No text, and cut off in its last sequence, whatever the buffer holds behind what is read. -/
structure CutOff (bytes : Bytes) : Prop where
  noText : ∀ text, ¬ IsText bytes text
  truncated : ∀ buffer : Bytes, buffer.length = GetFileSize bytes →
    bytes.take (transferred (GetFileSize bytes)) <+: buffer → Truncated buffer

/-- A text behind either mark, which it has as its own, big-endian with every second unit zero and no longer than what is
read at once; or, behind neither, a text that fills its buffer or what is no text and cut off. -/
def Fits (o : ByteOrder) (bytes : Bytes) : Prop :=
  (markLittle o <+: bytes ∧ ∃ rest, bytes = utf16Bytes .little (Char.ofNat 0xfeff :: rest)) ∨
  (markBig o <+: bytes ∧ bytes.length ≤ 0x7ffff000 ∧ ∃ rest, bytes = utf16Bytes .big (Char.ofNat 0xfeff :: rest) ∧
    ∀ i u, (utf16 (Char.ofNat 0xfeff :: rest))[2 * i + 1]? = some u → u = 0) ∨
  (¬ markLittle o <+: bytes ∧ ¬ markBig o <+: bytes ∧ (FilledText o bytes ∨ CutOff bytes))

/-! ### Bytes of texts -/

theorem utf8EncodeChar_lt (c : Char) : ∀ b ∈ String.utf8EncodeChar c, b.toNat < 0xf8 := by
  have hbyte : ∀ n < 0xf8, (UInt8.ofNat n).toNat < 0xf8 := by
    intro n hn
    rw [UInt8.toNat_ofNat']
    omega
  unfold String.utf8EncodeChar
  dsimp only
  split_ifs with h₁ h₂ h₃
  all_goals simp only [List.forall_mem_cons, List.not_mem_nil, false_implies, implies_true, and_true]
  · exact hbyte _ (by omega)
  · exact ⟨hbyte _ (by omega), hbyte _ (by omega)⟩
  · exact ⟨hbyte _ (by omega), hbyte _ (by omega), hbyte _ (by omega)⟩
  · exact ⟨hbyte _ (by omega), hbyte _ (by omega), hbyte _ (by omega), hbyte _ (by omega)⟩

theorem length_utf8_le (text : List Char) : (utf8 text).length ≤ 3 * (utf16 text).length := by
  induction text with
  | nil => exact le_rfl
  | cons c text ih =>
    have hc : (String.utf8EncodeChar c).length ≤ 3 * (utf16Char c).length := by
      unfold utf16Char String.utf8EncodeChar
      dsimp only
      split_ifs
      all_goals simp only [List.length_cons, List.length_nil]
      all_goals omega
    have hcons : utf16 (c :: text) = utf16Char c ++ utf16 text := rfl
    have hcons' : utf8 (c :: text) = String.utf8EncodeChar c ++ utf8 text := rfl
    rw [hcons, hcons', List.length_append, List.length_append]
    omega

theorem utf8_lt {text : List Char} {b : UInt8} (h : b ∈ utf8 text) : b.toNat < 0xf8 := by
  obtain ⟨c, -, hb⟩ := List.mem_flatMap.mp h
  exact utf8EncodeChar_lt c b hb

theorem length_utf16Bytes (o : ByteOrder) (text : List Char) :
    (utf16Bytes o text).length = 2 * (utf16 text).length := by
  rw [utf16Bytes]
  induction utf16 text with
  | nil => rfl
  | cons u units ih =>
    rw [List.flatMap_cons, List.length_append, ByteOrder.length_bytes16, ih, List.length_cons]
    omega

theorem utf16Bytes_mark (rest : List Char) (o : ByteOrder) :
    utf16Bytes o (Char.ofNat 0xfeff :: rest) = o.arrange [0xff, 0xfe] ++ utf16Bytes o rest := rfl

theorem not_utf8_of_mem {bytes : Bytes} {text : List Char} (h : 0xff ∈ bytes) : bytes ≠ utf8 text := by
  rintro rfl
  exact absurd (utf8_lt h) (by decide)

/-! ### The three ways -/

section
variable (env : Env) {fileName : WString} {s : State} {bytes : Bytes}

theorem load_take_iff (o : ByteOrder) (bytes : Bytes) {n : ℕ} (hn : n < 256 ^ 4) :
    (bytes.take 4).length = 4 ∧ o.load (bytes.take 4) = n ↔ o.arrange (leBytes 4 n) <+: bytes := by
  have hlen : (o.arrange (leBytes 4 n)).length = 4 := by rw [ByteOrder.length_arrange, length_leBytes]
  rw [List.prefix_iff_eq_take, hlen]
  constructor
  · rintro ⟨h4, hload⟩
    have hword := o.leBytes_load (bytes.take 4)
    rw [h4, hload] at hword
    rw [hword, ByteOrder.arrange_arrange]
  · intro hword
    rw [← hword]
    refine ⟨hlen, ?_⟩
    rw [ByteOrder.load, ByteOrder.arrange_arrange, ofLE_leBytes_of_lt hn]

theorem textMark_little (o : ByteOrder) (bytes : Bytes) : textMark o bytes = (true, true) ↔ markLittle o <+: bytes := by
  rw [← show o.arrange (leBytes 4 0xfeff) = markLittle o from rfl, ← load_take_iff o bytes (by decide), textMark]
  split_ifs with h h'
  · exact ⟨fun _ => h, fun _ => rfl⟩
  · exact ⟨fun heq => by simp at heq, fun hword => absurd hword h⟩
  · exact ⟨fun heq => by simp at heq, fun hword => absurd hword h⟩

theorem textMark_big (o : ByteOrder) (bytes : Bytes) : textMark o bytes = (true, false) ↔ markBig o <+: bytes := by
  rw [← show o.arrange (leBytes 4 0xfffe) = markBig o from rfl, ← load_take_iff o bytes (by decide), textMark]
  split_ifs with h h'
  · refine ⟨fun heq => by simp at heq, fun hword => ?_⟩
    exact absurd (h.2.symm.trans hword.2) (by decide)
  · exact ⟨fun _ => h', fun _ => rfl⟩
  · exact ⟨fun heq => by simp at heq, fun hword => absurd hword h'⟩

theorem sourceFileUsed_little (h : s.disk (sisFile env fileName) = some bytes)
    (hmark : textMark env.order bytes = (true, true)) : sourceFileUsed env fileName s = (.ok (fileName, false), s) := by
  have hunicode := FileIsUnicode_apply env h
  rw [hmark] at hunicode
  rw [sourceFileUsed, Run.bind_ok hunicode]
  rfl

theorem writeTemp_apply (name : WString) (content : Bytes) (s : State) : ∃ temp s', (do
      let pszTempSource ← TempFileName env name
      let temp ← createNew env pszTempSource
      setContents temp (some content)
      pure pszTempSource : Gen WString) s = (.ok temp, s') ∧ s'.disk (sisFile env temp) = some content := by
  obtain ⟨temp, htemp, -⟩ := TempFileName_apply env name s
  rw [Run.bind_ok htemp]
  refine ⟨temp, _, rfl, ?_⟩
  exact Function.update_self _ _ _

theorem sourceFileUsed_big (h : s.disk (sisFile env fileName) = some bytes)
    (hmark : textMark env.order bytes = (true, false)) :
    (¬ WordsFit bytes ∧ ∃ s', sourceFileUsed env fileName s = (.error .undefined, s')) ∨
      ∃ used g s', sourceFileUsed env fileName s = (.ok used, s') ∧ s'.disk (sisFile env used.1) =
        some (writtenBytes (exchangeWords env (GetFileSize bytes / 2)
          (bytes.take (transferred (GetFileSize bytes)) ++ g)) (GetFileSize bytes)) := by
  have hunicode := FileIsUnicode_apply env h
  rw [hmark] at hunicode
  rw [sourceFileUsed, Run.bind_ok hunicode]
  simp only [not_true_eq_false, if_false, Bool.false_eq_true, not_false_eq_true, if_true]
  rw [ConvertFileToLittleEndianUnicode, Run.bind_assoc, Run.bind_ok (openSource_some env h), Run.bind_assoc,
    Run.bind_ok (contents_apply _ _), h, Option.getD_some, Run.bind_assoc, uninitialised_bind, env.length_memory]
  by_cases hfits : WordsFit bytes
  · rw [if_neg (Nat.not_lt_of_le hfits)]
    obtain ⟨temp, s', hrun, hdisk⟩ := writeTemp_apply env fileName (writtenBytes (exchangeWords env
      (GetFileSize bytes / 2) (ReadFile bytes (env.memory s.allocated (4 * (GetFileSize bytes / 2)))
        (GetFileSize bytes))) (GetFileSize bytes)) { s with allocated := s.allocated + 1 }
    exact .inr ⟨(temp, true), _, s', Run.bind_ok hrun, hdisk⟩
  · rw [if_pos (Nat.lt_of_not_le hfits)]
    exact .inl ⟨hfits, _, rfl⟩

/-- The buffer that `ConvertFileToUnicode` converts. -/
def narrowBuffer (env : Env) (s : State) (bytes : Bytes) : Bytes :=
  ReadFile bytes (env.memory s.allocated (GetFileSize bytes)) (GetFileSize bytes)

theorem length_narrowBuffer : (narrowBuffer env s bytes).length = GetFileSize bytes := by
  rw [narrowBuffer, ReadFile, List.length_append, List.length_drop, env.length_memory, length_take_size, transferred]
  omega

theorem narrowBuffer_of_le (hlen : bytes.length ≤ 0x7ffff000) : narrowBuffer env s bytes = bytes := by
  have hsize : GetFileSize bytes = bytes.length := Nat.mod_eq_of_lt (by omega)
  rw [narrowBuffer, readFile_full (hsize ▸ hlen) (env.length_memory _ _), hsize, List.take_length]

/-- What is left of `ConvertFileToUnicode` when the source has been read and the temporary file made. -/
theorem ConvertFileToUnicode_apply (h : s.disk (sisFile env fileName) = some bytes) :
    ∃ (temp : WString) (s₁ : State) (pBufU : Bytes), pBufU.length = 4 * GetFileSize bytes ∧
      ConvertFileToUnicode env fileName s =
      (match ConvertUTF8toUTF16 (GetFileSize bytes) (narrowBuffer env s bytes) with
      | .conversionOK units => do
        setContents (sisFile env temp) (some (writtenBytes (units.flatMap env.order.bytes16 ++
          pBufU.drop (units.flatMap env.order.bytes16).length) (4 * GetFileSize bytes % 2 ^ 32)))
        pure temp
      | .sourceExhausted => Run.stop .ErrCannotConvertFile
      | .sourceIllegal => Run.stop .forever : Gen WString) s₁ := by
  obtain ⟨temp, htemp, -⟩ := TempFileName_apply env fileName { s with allocated := s.allocated + 1 }
  refine ⟨temp, { s with
    disk := Function.update s.disk (sisFile env temp) (some [])
    allocated := s.allocated + 1 + 1 }, env.memory (s.allocated + 1) (4 * GetFileSize bytes), env.length_memory _ _, ?_⟩
  rw [ConvertFileToUnicode, Run.bind_ok (openSource_some env h), Run.bind_ok (contents_apply _ _), h, Option.getD_some,
    uninitialised_bind, Run.bind_ok htemp]
  rfl

theorem sourceFileUsed_utf8 (h : s.disk (sisFile env fileName) = some bytes)
    (hmark : textMark env.order bytes = (false, false)) : sourceFileUsed env fileName s = (do
      let pszTempSource ← ConvertFileToUnicode env fileName
      pure (pszTempSource, true)) s := by
  have hunicode := FileIsUnicode_apply env h
  rw [hmark] at hunicode
  rw [sourceFileUsed, Run.bind_ok hunicode]
  rfl

end

/-! ### A text that is cut off -/

theorem truncated_cons {b : UInt8} {source : Bytes} : Truncated (b :: source) ↔
    source.length < trailingBytesForUTF8 b ∨
      isLegalUTF8 b (source.take (trailingBytesForUTF8 b)) ∧ Truncated (source.drop (trailingBytesForUTF8 b)) := by
  constructor
  · intro h
    cases h with
    | last hlt => exact .inl hlt
    | next hlen hlegal hrest =>
      right
      rw [← hlen, List.take_left, List.drop_left]
      exact ⟨hlegal, hrest⟩
  · intro h
    by_cases hlt : source.length < trailingBytesForUTF8 b
    · exact .last hlt
    · obtain ⟨hlegal, hrest⟩ := h.resolve_left hlt
      have hlen : (source.take (trailingBytesForUTF8 b)).length = trailingBytesForUTF8 b := by
        rw [List.length_take]
        omega
      have hnext := Truncated.next hlen hlegal hrest
      rwa [List.take_append_drop] at hnext

/-- The conversion stops for want of bytes only in the middle of a sequence. -/
theorem ConvertUTF8toUTF16_truncated (fuel : ℕ) (bytes : Bytes) (hfuel : bytes.length ≤ fuel) :
    ConvertUTF8toUTF16 fuel bytes = .sourceExhausted ↔ Truncated bytes := by
  induction fuel generalizing bytes with
  | zero =>
    obtain rfl := List.eq_nil_of_length_eq_zero (Nat.le_zero.mp hfuel)
    exact ⟨fun h => by simp [ConvertUTF8toUTF16] at h, fun h => by cases h⟩
  | succ fuel ih =>
    rcases bytes with _ | ⟨b, source⟩
    · exact ⟨fun h => by simp [ConvertUTF8toUTF16] at h, fun h => by cases h⟩
    · rw [List.length_cons] at hfuel
      have hdrop : (source.drop (trailingBytesForUTF8 b)).length ≤ fuel := by
        rw [List.length_drop]
        omega
      rw [truncated_cons, ConvertUTF8toUTF16]
      by_cases hlt : source.length < trailingBytesForUTF8 b
      · rw [if_pos hlt]
        exact ⟨fun _ => .inl hlt, fun _ => rfl⟩
      · rw [if_neg hlt]
        by_cases hlegal : isLegalUTF8 b (source.take (trailingBytesForUTF8 b))
        · rw [if_pos hlegal, ← ih _ hdrop]
          rcases hrest : ConvertUTF8toUTF16 fuel (source.drop (trailingBytesForUTF8 b)) with units | _ | _
          · simp [hlt]
          · simp [hlegal]
          · simp [hlt]
        · rw [if_neg hlegal]
          simp [hlt, hlegal]

/-! ### A text in UTF-8 -/

theorem ff_of_isLegalUTF8 {b : UInt8} {trailing : Bytes} (h : isLegalUTF8 b trailing) : 0xff ∉ b :: trailing := by
  have hmax : ¬ (0xff : UInt8) ≤ 0xbf := by decide
  have hfirst : ¬ (0xff : UInt8) ≤ 0xf4 := by decide
  intro hmem
  rcases trailing with _ | ⟨x, _ | ⟨y, _ | ⟨z, _ | ⟨w, rest⟩⟩⟩⟩
  all_goals
    simp only [isLegalUTF8, decide_eq_true_eq] at h
    simp only [List.mem_cons, List.not_mem_nil, or_false] at hmem
  · subst hmem
    exact hfirst h.2
  · rcases hmem with rfl | rfl
    · exact hfirst h.2.2.2
    · exact hmax h.1
  · rcases hmem with rfl | rfl | rfl
    · exact hfirst h.2.2.2.2
    · exact hmax h.2.1
    · exact hmax h.1.2
  · rcases hmem with rfl | rfl | rfl | rfl
    · exact hfirst h.2.2.2.2.2
    · exact hmax h.2.2.1
    · exact hmax h.2.1.2
    · exact hmax h.1.2
  · simp at h

theorem ff_of_conversionOK {fuel : ℕ} {bytes : Bytes} {units : List UInt16}
    (h : ConvertUTF8toUTF16 fuel bytes = .conversionOK units) : 0xff ∉ bytes := by
  induction fuel generalizing bytes units with
  | zero =>
    rcases bytes with _ | ⟨b, source⟩
    · exact List.not_mem_nil
    · simp [ConvertUTF8toUTF16] at h
  | succ fuel ih =>
    rcases bytes with _ | ⟨b, source⟩
    · exact List.not_mem_nil
    · rw [ConvertUTF8toUTF16] at h
      by_cases hlt : source.length < trailingBytesForUTF8 b
      · simp [hlt] at h
      · rw [if_neg hlt] at h
        by_cases hlegal : isLegalUTF8 b (source.take (trailingBytesForUTF8 b))
        · rw [if_pos hlegal] at h
          rcases hrest : ConvertUTF8toUTF16 fuel (source.drop (trailingBytesForUTF8 b)) with rest | _ | _
          · rw [← List.take_append_drop (trailingBytesForUTF8 b) source, ← List.cons_append, List.mem_append, not_or]
            exact ⟨ff_of_isLegalUTF8 hlegal, ih hrest⟩
          · simp [hrest] at h
          · simp [hrest] at h
        · simp [hlegal] at h

/-- The second byte of a legal sequence, whose range depends on the first one. -/
theorem inner_iff (b x : UInt8) :
    (if b = 0xe0 then decide (0xa0 ≤ x) else if b = 0xf0 then decide (0x90 ≤ x) else if b = 0xf4 then decide (x ≤ 0x8f)
      else decide (0x80 ≤ x)) = true ↔
    if b.toNat = 0xE0 then 0xA0 ≤ x.toNat else if b.toNat = 0xF0 then 0x90 ≤ x.toNat
      else if b.toNat = 0xF4 then x.toNat ≤ 0x8F else 0x80 ≤ x.toNat := by
  have heq : ∀ n : UInt8, b = n ↔ b.toNat = n.toNat := fun n => UInt8.toNat_inj.symm
  simp only [heq, UInt8.le_iff_toNat_le, UInt8.reduceToNat]
  split_ifs
  all_goals exact decide_eq_true_iff

theorem isLegalUTF8_of_sequence {v : ℕ} {b : UInt8} {trailing : Bytes} (h : Pkg.Sequence v b trailing) :
    isLegalUTF8 b trailing := by
  have hlegal := h.legal []
  rw [List.append_nil] at hlegal
  rcases trailing with _ | ⟨x, _ | ⟨y, _ | ⟨z, _ | ⟨w, rest⟩⟩⟩⟩
  · simp only [isLegalUTF8, decide_eq_true_eq]
    exact of_decide_eq_true hlegal
  · simp only [isLegalUTF8, decide_eq_true_eq, inner_iff]
    exact of_decide_eq_true hlegal
  · simp only [isLegalUTF8, decide_eq_true_eq, inner_iff]
    exact of_decide_eq_true hlegal
  · simp only [isLegalUTF8, decide_eq_true_eq, inner_iff]
    exact of_decide_eq_true hlegal
  · simp [Pkg.isLegalUTF8] at hlegal

theorem decodeUTF8_of_sequence {v : ℕ} {b : UInt8} {trailing : Bytes} (h : Pkg.Sequence v b trailing) :
    decodeUTF8 b trailing = v := by
  have hlegal := h.legal []
  have hvalue := h.value
  rcases trailing with _ | ⟨x, _ | ⟨y, _ | ⟨z, _ | ⟨w, rest⟩⟩⟩⟩
  · exact show b.toNat = v by simpa [Pkg.sequenceValue, Pkg.offsetsFromUTF8] using hvalue
  · simp only [Pkg.sequenceValue, List.foldl_cons, List.foldl_nil, Nat.zero_mul, Nat.zero_add] at hvalue
    exact hvalue
  · simp only [Pkg.sequenceValue, List.foldl_cons, List.foldl_nil, Nat.zero_mul, Nat.zero_add] at hvalue
    exact hvalue
  · simp only [Pkg.sequenceValue, List.foldl_cons, List.foldl_nil, Nat.zero_mul, Nat.zero_add] at hvalue
    exact hvalue
  · simp [Pkg.isLegalUTF8] at hlegal

theorem unitsUTF16_eq (ch : ℕ) : unitsUTF16 ch = Pkg.lenientUnits ch := by
  have hshift : (ch - 0x10000) >>> 10 = (ch - 0x10000) / 1024 := Nat.shiftRight_eq_div_pow _ 10
  have hmask : (ch - 0x10000) &&& 0x3FF = (ch - 0x10000) % 1024 := Nat.and_two_pow_sub_one_eq_mod _ 10
  rw [unitsUTF16, Pkg.lenientUnits, hshift, hmask]
  by_cases hbmp : ch ≤ 0xffff
  · simp only [hbmp, if_true, Pkg.reserved_iff hbmp]
  · rw [if_neg hbmp, if_neg hbmp]

theorem ConvertUTF8toUTF16_sequence {v fuel : ℕ} {b : UInt8} {trailing : Bytes} (h : Pkg.Sequence v b trailing)
    {source : Bytes} {units : List UInt16} (hsource : ConvertUTF8toUTF16 fuel source = .conversionOK units) :
    ConvertUTF8toUTF16 (fuel + 1) (b :: (trailing ++ source)) = .conversionOK (Pkg.lenientUnits v ++ units) := by
  have hcount : trailingBytesForUTF8 b = trailing.length := h.count
  have hlt : ¬ (trailing ++ source).length < trailing.length := by
    rw [List.length_append]
    omega
  rw [ConvertUTF8toUTF16, hcount, if_neg hlt, List.take_left, List.drop_left, if_pos (isLegalUTF8_of_sequence h), hsource,
    decodeUTF8_of_sequence h, unitsUTF16_eq]

theorem ConvertUTF8toUTF16_utf8 (text : List Char) {fuel : ℕ} (h : (utf8 text).length ≤ fuel) :
    ConvertUTF8toUTF16 fuel (utf8 text) = .conversionOK (utf16 (text.map lenientChar)) := by
  induction text generalizing fuel with
  | nil => rw [Pkg.utf8, List.flatMap_nil, ConvertUTF8toUTF16, List.map_nil, utf16, List.flatMap_nil]
  | cons c text ih =>
    obtain ⟨b, trailing, hc, hseq⟩ := Pkg.sequence_utf8EncodeChar c
    have hcons : utf8 (c :: text) = b :: (trailing ++ utf8 text) := by
      rw [← List.cons_append, ← hc]
      rfl
    rw [hcons, List.length_cons, List.length_append] at h
    obtain ⟨fuel, rfl⟩ : ∃ n, fuel = n + 1 := ⟨fuel - 1, by omega⟩
    rw [hcons, ConvertUTF8toUTF16_sequence hseq (ih (by omega)), Pkg.lenientUnits_val]
    rfl

/-! ### The exchange of the words -/

/-- The units with every second one set to zero. -/
def zeroSecond : List UInt16 → List UInt16
  | u :: _ :: units => u :: 0 :: zeroSecond units
  | units => units

theorem zeroSecond_eq_self : ∀ units : List UInt16,
    zeroSecond units = units ↔ ∀ i u, units[2 * i + 1]? = some u → u = 0
  | [] => by simp [zeroSecond]
  | [u] => by simp [zeroSecond]
  | u :: v :: units => by
    rw [zeroSecond, List.cons.injEq, List.cons.injEq, zeroSecond_eq_self units]
    constructor
    · rintro ⟨-, hv, h⟩ i w hw
      rcases i with _ | i
      · exact Option.some.inj hw ▸ hv.symm
      · exact h i w hw
    · intro h
      exact ⟨rfl, (h 0 v rfl).symm, fun i w hw => h (i + 1) w hw⟩

theorem bytes16_eq (u : UInt16) : ∃ a b, ByteOrder.big.bytes16 u = [a, b] ∧ ByteOrder.little.bytes16 u = [b, a] :=
  ⟨_, _, rfl, rfl⟩

theorem bytes16_inj (o : ByteOrder) {u v : UInt16} (h : o.bytes16 u = o.bytes16 v) : u = v := by
  have hle := congrArg o.load h
  rw [ByteOrder.load, ByteOrder.load, ByteOrder.bytes16, ByteOrder.bytes16, ByteOrder.arrange_arrange,
    ByteOrder.arrange_arrange, ofLE_leBytes_of_lt u.toNat_lt, ofLE_leBytes_of_lt v.toNat_lt] at hle
  exact UInt16.toNat_inj.mp hle

theorem flatMap_bytes16_inj (o : ByteOrder) : ∀ {us vs : List UInt16},
    us.flatMap o.bytes16 = vs.flatMap o.bytes16 → us = vs
  | [], [], _ => rfl
  | [], v :: vs, h => by
    have hlen := congrArg List.length h
    rw [List.flatMap_cons, List.length_append, ByteOrder.length_bytes16] at hlen
    simp at hlen
    omega
  | u :: us, [], h => by
    have hlen := congrArg List.length h
    rw [List.flatMap_cons, List.length_append, ByteOrder.length_bytes16] at hlen
    simp at hlen
  | u :: us, v :: vs, h => by
    rw [List.flatMap_cons, List.flatMap_cons] at h
    obtain ⟨hhead, htail⟩ := List.append_inj h (by rw [ByteOrder.length_bytes16, ByteOrder.length_bytes16])
    rw [bytes16_inj o hhead, flatMap_bytes16_inj o htail]

theorem take_exchangeWords_units {env : Env} (ho : env.order = .little) : ∀ (n : ℕ) (units : List UInt16) (g : Bytes),
    units.length ≤ 2 * n → (exchangeWords env n (units.flatMap ByteOrder.big.bytes16 ++ g)).take (2 * units.length) =
      (zeroSecond units).flatMap ByteOrder.little.bytes16
  | _, [], _, _ => rfl
  | 0, u :: units, g, h => by
    simp at h
  | n + 1, [u], g, h => by
    obtain ⟨a, b, hbig, hlittle⟩ := bytes16_eq u
    have hword : ([a, b] ++ g).take 4 = a :: b :: g.take 2 := rfl
    rw [zeroSecond.eq_def, List.flatMap_singleton, List.flatMap_singleton, hbig, hlittle, exchangeWords, ho, hword,
      exchange_little]
    rfl
  | n + 1, u :: v :: units, g, h => by
    obtain ⟨a, b, hbig, hlittle⟩ := bytes16_eq u
    obtain ⟨c, d, hbig', -⟩ := bytes16_eq v
    have ih := take_exchangeWords_units ho n units g (by simp only [List.length_cons] at h; omega)
    have hword : ([a, b] ++ ([c, d] ++ units.flatMap ByteOrder.big.bytes16) ++ g).take 4 = [a, b, c, d] := rfl
    have hdrop : ([a, b] ++ ([c, d] ++ units.flatMap ByteOrder.big.bytes16) ++ g).drop 4 =
        units.flatMap ByteOrder.big.bytes16 ++ g := rfl
    have htwo : 2 * (u :: v :: units).length = 4 + 2 * units.length := by
      simp only [List.length_cons]
      omega
    have htake : ∀ bytes : Bytes, ([b, a, 0, 0] ++ bytes).take (4 + 2 * units.length) =
        [b, a, 0, 0] ++ bytes.take (2 * units.length) := by
      intro bytes
      have hfour : [b, a, 0, 0].length = 4 := rfl
      rw [← hfour]
      exact List.take_length_add_append _
    rw [zeroSecond, List.flatMap_cons, List.flatMap_cons, List.flatMap_cons, List.flatMap_cons, hbig, hbig', hlittle,
      exchangeWords, ho, hword, hdrop, exchange_little, htwo, htake, ih]
    rfl

/-! ### Which contents come out -/

section
variable {env : Env} {fileName : WString} {s : State} {bytes : Bytes}

theorem utf16Bytes_of_isText {rest text : List Char} (h : bytes = utf16Bytes .little (Char.ofNat 0xfeff :: rest))
    (htext : IsText bytes text) : bytes = utf16Bytes .little text := by
  rcases htext with hutf8 | ⟨o, more, rfl, hbytes⟩
  · refine absurd hutf8 (not_utf8_of_mem ?_)
    rw [h]
    exact List.mem_cons_self
  · cases o with
    | little => exact hbytes
    | big =>
      rw [h] at hbytes
      exact absurd (List.cons.inj hbytes).1 (by decide)

/-- Of the texts, only those with little-endian units begin with their mark on a host. -/
theorem utf16Bytes_little_of_mark {o : ByteOrder} {text : List Char} (hmark : markLittle o <+: bytes)
    (htext : IsText bytes text) : ∃ rest, bytes = utf16Bytes .little (Char.ofNat 0xfeff :: rest) := by
  obtain ⟨more, hmore⟩ := hmark
  rcases htext with hutf8 | ⟨o', rest, rfl, hbytes⟩
  · refine absurd hutf8 (not_utf8_of_mem ?_)
    rw [← hmore]
    cases o with
    | little => exact List.mem_cons_self
    | big => exact List.mem_append_left _ (by decide)
  · cases o' with
    | little => exact ⟨rest, hbytes⟩
    | big =>
      rw [← hmore] at hbytes
      cases o with
      | little => exact absurd (List.cons.inj hbytes).1 (by decide)
      | big => exact absurd (List.cons.inj hbytes).1 (by decide)

theorem utf16Bytes_big_of_mark {o : ByteOrder} {text : List Char} (hmark : markBig o <+: bytes)
    (htext : IsText bytes text) :
    o = .little ∧ ∃ rest, text = Char.ofNat 0xfeff :: rest ∧ bytes = utf16Bytes .big text := by
  obtain ⟨more, hmore⟩ := hmark
  rcases htext with hutf8 | ⟨o', rest, rfl, hbytes⟩
  · refine absurd hutf8 (not_utf8_of_mem ?_)
    rw [← hmore]
    cases o with
    | little => exact List.mem_append_left _ (by decide)
    | big => exact List.mem_append_left _ (by decide)
  · have hhead := hmore.trans hbytes
    cases o' with
    | little =>
      cases o with
      | little => exact absurd (List.cons.inj hhead).1 (by decide)
      | big => exact absurd (List.cons.inj hhead).1 (by decide)
    | big =>
      cases o with
      | little => exact ⟨rfl, rest, rfl, hbytes⟩
      | big => exact absurd (List.cons.inj hhead).1 (by decide)

theorem Fulfils.exists_text {used : WString × Bool} {s' : State} (h : Fulfils env fileName s bytes)
    (hrun : sourceFileUsed env fileName s = (.ok used, s')) : ∃ text, IsText bytes text ∧
      s'.disk (sisFile env used.1) = some (utf16Bytes .little text) := by
  by_cases htext : ∃ text, IsText bytes text
  · obtain ⟨text, htext⟩ := htext
    obtain ⟨used', s'', hrun', hdisk⟩ := h.text text htext
    rw [hrun] at hrun'
    obtain ⟨hused, rfl⟩ := Prod.mk.inj hrun'
    obtain rfl := Except.ok.inj hused
    exact ⟨text, htext, hdisk⟩
  · obtain ⟨e, he, -, -⟩ := h.other (not_exists.mp htext)
    rw [hrun] at he
    simp at he

/-- What there is to show where the choice ends well. -/
theorem fulfils_used {used : WString × Bool} {s' : State} {content : Bytes}
    (hrun : sourceFileUsed env fileName s = (.ok used, s')) (hdisk : s'.disk (sisFile env used.1) = some content) :
    Fulfils env fileName s bytes ↔
      (∃ text, IsText bytes text) ∧ ∀ text, IsText bytes text → content = utf16Bytes .little text := by
  constructor
  · intro hful
    obtain ⟨text, htext, -⟩ := hful.exists_text hrun
    refine ⟨⟨text, htext⟩, fun text htext => ?_⟩
    obtain ⟨used', s'', hrun', hfile⟩ := hful.text text htext
    rw [hrun] at hrun'
    obtain ⟨hused, rfl⟩ := Prod.mk.inj hrun'
    obtain rfl := Except.ok.inj hused
    exact Option.some.inj (hdisk.symm.trans hfile)
  · rintro ⟨⟨text, htext⟩, hall⟩
    exact ⟨fun text htext => ⟨_, _, hrun, hdisk.trans (congrArg some (hall text htext))⟩,
      fun hno => absurd htext (hno text)⟩

theorem fulfils_stopped {e : Stop} {s' : State} (hrun : sourceFileUsed env fileName s = (.error e, s')) :
    Fulfils env fileName s bytes ↔ (∀ text, ¬ IsText bytes text) ∧ e ≠ .undefined ∧ e ≠ .forever := by
  constructor
  · intro hful
    have hno : ∀ text, ¬ IsText bytes text := by
      intro text htext
      obtain ⟨used, s'', hok, -⟩ := hful.text text htext
      rw [hrun] at hok
      simp at hok
    obtain ⟨e', he', hne⟩ := hful.other hno
    rw [hrun] at he'
    exact ⟨hno, Except.error.inj he' ▸ hne⟩
  · rintro ⟨hno, hne⟩
    refine ⟨fun text htext => absurd htext (hno text), fun _ => ⟨e, ?_, hne⟩⟩
    rw [hrun]

theorem fulfils_little (h : s.disk (sisFile env fileName) = some bytes) (hmark : markLittle env.order <+: bytes) :
    Fulfils env fileName s bytes ↔ ∃ rest, bytes = utf16Bytes .little (Char.ofNat 0xfeff :: rest) := by
  rw [fulfils_used (sourceFileUsed_little env h ((textMark_little _ _).mpr hmark)) h]
  constructor
  · rintro ⟨⟨text, htext⟩, -⟩
    exact utf16Bytes_little_of_mark hmark htext
  · rintro ⟨rest, hbytes⟩
    exact ⟨⟨_, .inr ⟨.little, rest, rfl, hbytes⟩⟩, fun text htext => utf16Bytes_of_isText hbytes htext⟩

theorem length_writtenBytes_le (buffer : Bytes) (n : ℕ) : (writtenBytes buffer n).length ≤ 0x7ffff000 := by
  rw [writtenBytes, List.length_take, transferred]
  omega

/-- Text with the big-endian mark comes out right only where every second unit is zero. -/
theorem fulfils_big (h : s.disk (sisFile env fileName) = some bytes) (hmark : markBig env.order <+: bytes) :
    Fulfils env fileName s bytes ↔ bytes.length ≤ 0x7ffff000 ∧
      ∃ rest, bytes = utf16Bytes .big (Char.ofNat 0xfeff :: rest) ∧
        ∀ i u, (utf16 (Char.ofNat 0xfeff :: rest))[2 * i + 1]? = some u → u = 0 := by
  have hfour : 4 ≤ bytes.length := by
    have hle := hmark.length_le
    rwa [markBig, ByteOrder.length_arrange] at hle
  rcases sourceFileUsed_big env h ((textMark_big _ _).mpr hmark) with ⟨hfits, s', hstop⟩ | ⟨used, g, s', hrun, hdisk⟩
  · rw [fulfils_stopped hstop]
    refine iff_of_false (fun hful => hful.2.1 rfl) fun hlen => hfits ?_
    have hsize : GetFileSize bytes = bytes.length := Nat.mod_eq_of_lt (by omega)
    rw [WordsFit, hsize]
    omega
  · rw [fulfils_used hrun hdisk]
    -- what the temporary file holds of a text that is read at once
    have hcontent : ∀ {text : List Char}, env.order = .little → bytes = utf16Bytes .big text →
        bytes.length ≤ 0x7ffff000 → writtenBytes (exchangeWords env (GetFileSize bytes / 2)
          (bytes.take (transferred (GetFileSize bytes)) ++ g)) (GetFileSize bytes) =
            (zeroSecond (utf16 text)).flatMap ByteOrder.little.bytes16 := by
      intro text ho hbytes hlen
      have hsize : GetFileSize bytes = bytes.length := Nat.mod_eq_of_lt (by omega)
      have hread : transferred bytes.length = bytes.length := Nat.min_eq_left hlen
      have htwo : bytes.length = 2 * (utf16 text).length := by rw [hbytes, length_utf16Bytes]
      rw [writtenBytes, hsize, hread, List.take_length, htwo, Nat.mul_div_cancel_left _ (by decide), hbytes, utf16Bytes,
        take_exchangeWords_units ho]
      omega
    constructor
    · rintro ⟨⟨text, htext⟩, hall⟩
      obtain ⟨ho, rest, rfl, hbytes⟩ := utf16Bytes_big_of_mark hmark htext
      have hfile := hall _ htext
      have hlen : bytes.length ≤ 0x7ffff000 := by
        rw [hbytes, length_utf16Bytes, ← length_utf16Bytes .little, ← hfile]
        exact length_writtenBytes_le _ _
      rw [hcontent ho hbytes hlen] at hfile
      exact ⟨hlen, rest, hbytes, (zeroSecond_eq_self _).mp (flatMap_bytes16_inj .little hfile)⟩
    · rintro ⟨hlen, rest, hbytes, hzero⟩
      refine ⟨⟨_, .inr ⟨.big, rest, rfl, hbytes⟩⟩, fun text htext => ?_⟩
      obtain ⟨ho, -, -, hbytes'⟩ := utf16Bytes_big_of_mark hmark htext
      have hunits : utf16 text = utf16 (Char.ofNat 0xfeff :: rest) :=
        flatMap_bytes16_inj .big (hbytes'.symm.trans hbytes)
      rw [hcontent ho hbytes' hlen, hunits, (zeroSecond_eq_self _).mpr hzero, utf16Bytes, hunits]

theorem textMark_none {o : ByteOrder} (hlittle : ¬ markLittle o <+: bytes) (hbig : ¬ markBig o <+: bytes) :
    textMark o bytes = (false, false) := by
  rw [← textMark_little] at hlittle
  rw [← textMark_big] at hbig
  unfold textMark at hlittle hbig ⊢
  split_ifs at hlittle hbig ⊢
  · exact absurd rfl hlittle
  · exact absurd rfl hbig
  · rfl

/-- What there is to show of a file without a mark, for each way in which the conversion ends. -/
theorem fulfils_unmarked (h : s.disk (sisFile env fileName) = some bytes) (hlittle : ¬ markLittle env.order <+: bytes)
    (hbig : ¬ markBig env.order <+: bytes) :
    match ConvertUTF8toUTF16 (GetFileSize bytes) (narrowBuffer env s bytes) with
    | .conversionOK units => ∃ rest : Bytes, 4 * GetFileSize bytes ≤ 2 * units.length + rest.length ∧
      (Fulfils env fileName s bytes ↔ (∃ text, IsText bytes text) ∧ ∀ text, IsText bytes text →
        writtenBytes (units.flatMap env.order.bytes16 ++ rest) (4 * GetFileSize bytes % 2 ^ 32) = utf16Bytes .little text)
    | .sourceExhausted => Fulfils env fileName s bytes ↔ ∀ text, ¬ IsText bytes text
    | .sourceIllegal => ¬ Fulfils env fileName s bytes := by
  obtain ⟨temp, s₁, pBufU, hlen, hconvert⟩ := ConvertFileToUnicode_apply env h
  have hrun := sourceFileUsed_utf8 env h (textMark_none hlittle hbig)
  rcases hresult : ConvertUTF8toUTF16 (GetFileSize bytes) (narrowBuffer env s bytes) with units | _ | _
  all_goals rw [hresult] at hconvert
  · rw [Run.bind_ok (show ConvertFileToUnicode env fileName s = (.ok temp, _) from hconvert)] at hrun
    refine ⟨_, ?_, fulfils_used hrun (Function.update_self _ _ _)⟩
    rw [List.length_drop, length_flatMap_bytes16, hlen]
    omega
  · rw [Run.bind_error (show ConvertFileToUnicode env fileName s = (.error .ErrCannotConvertFile, _) from hconvert)]
      at hrun
    dsimp only
    rw [fulfils_stopped hrun]
    simp
  · rw [Run.bind_error (show ConvertFileToUnicode env fileName s = (.error .forever, _) from hconvert)] at hrun
    dsimp only
    rw [fulfils_stopped hrun]
    simp

theorem not_both_marks {o : ByteOrder} (hlittle : markLittle o <+: bytes) : ¬ markBig o <+: bytes := by
  rw [← textMark_little] at hlittle
  rw [← textMark_big, hlittle]
  decide

theorem isText_utf8 {text : List Char} (h : IsText bytes text) (hff : 0xff ∉ bytes) : bytes = utf8 text := by
  rcases h with hutf8 | ⟨o, rest, rfl, hbytes⟩
  · exact hutf8
  · refine absurd ?_ hff
    rw [hbytes, utf16Bytes_mark]
    cases o with
    | little => exact List.mem_cons_self
    | big => exact List.mem_append_left _ (by decide)

theorem length_le_of_isText {text : List Char} (h : IsText bytes text) : bytes.length ≤ 3 * (utf16 text).length := by
  rcases h with rfl | ⟨o, rest, -, rfl⟩
  · exact length_utf8_le text
  · rw [length_utf16Bytes]
    omega

end

/-! ### What is written of a text in UTF-8 -/

theorem flatMap_bytes16_big : ∀ {units : List UInt16},
    units.flatMap ByteOrder.big.bytes16 = units.flatMap ByteOrder.little.bytes16 ↔ ∀ u ∈ units, EqualBytes u
  | [] => by simp
  | u :: units => by
    have hequal : ByteOrder.big.bytes16 u = ByteOrder.little.bytes16 u ↔ EqualBytes u := by
      refine ⟨fun h => ?_, fun h => h.bytes16 .big⟩
      have hhead := congrArg UInt8.toNat (List.cons.inj h).1
      rw [UInt8.toNat_ofNat', UInt8.toNat_ofNat'] at hhead
      have hlt := u.toNat_lt
      rw [EqualBytes]
      omega
    rw [List.flatMap_cons, List.flatMap_cons, List.forall_mem_cons, ← hequal, ← flatMap_bytes16_big]
    refine ⟨fun h => List.append_inj h ?_, fun h => by rw [h.1, h.2]⟩
    rw [ByteOrder.length_bytes16, ByteOrder.length_bytes16]

theorem keptChar_iff (o : ByteOrder) (c : Char) :
    (utf16Char (lenientChar c)).flatMap o.bytes16 = (utf16Char c).flatMap ByteOrder.little.bytes16 ↔ KeptChar o c := by
  by_cases hfffe : c.val.toNat = 0xfffe
  · obtain rfl : c = Char.ofNat 0xfffe := Char.ext (UInt32.toNat_inj.mp hfffe)
    cases o with
    | little => exact iff_of_false (by decide) fun h => h.1 rfl
    | big => exact iff_of_false (by decide) fun h => absurd (h.2 0xfffe (by decide)) (by unfold EqualBytes; decide)
  · by_cases hffff : c.val.toNat = 0xffff
    · obtain rfl : c = Char.ofNat 0xffff := Char.ext (UInt32.toNat_inj.mp hffff)
      cases o with
      | little => exact iff_of_false (by decide) fun h => h.2 rfl
      | big => exact iff_of_false (by decide) fun h => h.1 rfl
    · rw [lenientChar, if_neg (not_or.mpr ⟨hfffe, hffff⟩)]
      cases o with
      | little => exact iff_of_true rfl ⟨hfffe, hffff⟩
      | big =>
        rw [flatMap_bytes16_big]
        exact ⟨fun h => ⟨hffff, h⟩, fun h => h.2⟩

theorem length_utf16Char_lenientChar (c : Char) : (utf16Char (lenientChar c)).length = (utf16Char c).length := by
  rw [lenientChar]
  split
  · next hreserved =>
    have hlt : c.val.toNat < 0x10000 := by omega
    rw [utf16Char, utf16Char, if_pos (by decide), if_pos hlt]
    rfl
  · rfl

theorem length_utf16_lenientChar (text : List Char) : (utf16 (text.map lenientChar)).length = (utf16 text).length := by
  induction text with
  | nil => rfl
  | cons c text ih =>
    rw [List.map_cons, utf16, utf16, List.flatMap_cons, List.flatMap_cons, List.length_append, List.length_append,
      length_utf16Char_lenientChar]
    exact congrArg _ ih

theorem keptChars_iff (o : ByteOrder) (text : List Char) :
    (utf16 (text.map lenientChar)).flatMap o.bytes16 = utf16Bytes .little text ↔ ∀ c ∈ text, KeptChar o c := by
  induction text with
  | nil => exact iff_of_true rfl fun c hc => absurd hc List.not_mem_nil
  | cons c text ih =>
    have hcons : (utf16 ((c :: text).map lenientChar)).flatMap o.bytes16 =
        (utf16Char (lenientChar c)).flatMap o.bytes16 ++ (utf16 (text.map lenientChar)).flatMap o.bytes16 :=
      List.flatMap_append
    have hcons' : utf16Bytes .little (c :: text) =
        (utf16Char c).flatMap ByteOrder.little.bytes16 ++ utf16Bytes .little text := List.flatMap_append
    rw [hcons, hcons', List.forall_mem_cons, ← ih, ← keptChar_iff]
    refine ⟨fun h => List.append_inj h ?_, fun h => by rw [h.1, h.2]⟩
    rw [length_flatMap_bytes16, length_flatMap_bytes16, length_utf16Char_lenientChar]

/-- What is written is the text where it ends with the units and all of them come out. -/
theorem written_iff {o : ByteOrder} {text : List Char} {n : ℕ} {rest : Bytes}
    (hroom : 4 * n ≤ 2 * (utf16 (text.map lenientChar)).length + rest.length) :
    writtenBytes ((utf16 (text.map lenientChar)).flatMap o.bytes16 ++ rest) (4 * n % 2 ^ 32) = utf16Bytes .little text ↔
      transferred (4 * n % 2 ^ 32) = 2 * (utf16 text).length ∧ ∀ c ∈ text, KeptChar o c := by
  have hmost : transferred (4 * n % 2 ^ 32) ≤ 4 * n := (Nat.min_le_left _ _).trans (Nat.mod_le _ _)
  have hlen : (writtenBytes ((utf16 (text.map lenientChar)).flatMap o.bytes16 ++ rest) (4 * n % 2 ^ 32)).length =
      transferred (4 * n % 2 ^ 32) := by
    rw [writtenBytes, List.length_take, List.length_append, length_flatMap_bytes16, Nat.min_eq_left (by omega)]
  -- as many bytes as there are units for
  have hunits : transferred (4 * n % 2 ^ 32) = 2 * (utf16 text).length →
      writtenBytes ((utf16 (text.map lenientChar)).flatMap o.bytes16 ++ rest) (4 * n % 2 ^ 32) =
        (utf16 (text.map lenientChar)).flatMap o.bytes16 := by
    intro hfilled
    rw [writtenBytes, hfilled, ← length_utf16_lenientChar, ← length_flatMap_bytes16 o, List.take_left]
  constructor
  · intro hwritten
    have hfilled : transferred (4 * n % 2 ^ 32) = 2 * (utf16 text).length := by
      rw [← hlen, hwritten, length_utf16Bytes]
    refine ⟨hfilled, (keptChars_iff o text).mp ?_⟩
    rw [← hunits hfilled, hwritten]
  · rintro ⟨hfilled, hkept⟩
    rw [hunits hfilled, (keptChars_iff o text).mpr hkept]

/-! ### Every memory -/

section
variable (env : Env) {fileName : WString} {s : State} {bytes : Bytes}

/-- Memory that holds one byte everywhere. -/
def filledMemory (b : UInt8) (_ n : ℕ) : Bytes := List.replicate n b

theorem length_filledMemory (b : UInt8) (k n : ℕ) : (filledMemory b k n).length = n := List.length_replicate

/-- A text that comes out is read as a whole: the memory behind a part of it may hold an illegal byte, and more than is
written at once does not come out. -/
theorem length_le_of_written {text : List Char} {units : List UInt16} {rest : Bytes} (htext : IsText bytes text)
    (hff : 0xff ∉ narrowBuffer (env.withMemory (filledMemory 0xff) (length_filledMemory 0xff)) s bytes)
    (hwritten : writtenBytes (units.flatMap env.order.bytes16 ++ rest) (4 * GetFileSize bytes % 2 ^ 32) =
      utf16Bytes .little text) : bytes.length ≤ 0x7ffff000 := by
  by_contra hlong
  have hmost := length_writtenBytes_le (units.flatMap env.order.bytes16 ++ rest) (4 * GetFileSize bytes % 2 ^ 32)
  rw [hwritten, length_utf16Bytes] at hmost
  have hunits := length_le_of_isText htext
  have hsize : GetFileSize bytes = bytes.length := Nat.mod_eq_of_lt (by omega)
  have hread : transferred (GetFileSize bytes) < GetFileSize bytes := by
    rw [hsize, transferred]
    omega
  refine hff (List.mem_append_right _ ?_)
  rw [length_take_size]
  have hmemory : (env.withMemory (filledMemory 0xff) (length_filledMemory 0xff)).memory s.allocated
      (GetFileSize bytes) = List.replicate (GetFileSize bytes) 0xff := rfl
  rw [hmemory, List.drop_replicate]
  exact List.mem_replicate.mpr ⟨by omega, rfl⟩

/-- A text without a mark that comes out whatever memory holds fills its buffer. -/
theorem filledText_of_fulfils (h : s.disk (sisFile env fileName) = some bytes) (hlittle : ¬ markLittle env.order <+: bytes)
    (hbig : ¬ markBig env.order <+: bytes) {text : List Char} (htext : IsText bytes text)
    (hful : Fulfils (env.withMemory (filledMemory 0xff) (length_filledMemory 0xff)) fileName s bytes) :
    FilledText env.order bytes := by
  have hcases := @fulfils_unmarked (env.withMemory (filledMemory 0xff) (length_filledMemory 0xff)) _ _ _ h hlittle hbig
  rcases hresult : ConvertUTF8toUTF16 (GetFileSize bytes)
    (narrowBuffer (env.withMemory (filledMemory 0xff) (length_filledMemory 0xff)) s bytes) with units | _ | _
  all_goals rw [hresult] at hcases
  · obtain ⟨rest, hroom, hiff⟩ := hcases
    obtain ⟨-, hall⟩ := hiff.mp hful
    have hff := ff_of_conversionOK hresult
    have hsmall := length_le_of_written env htext hff (hall text htext)
    have hsize : GetFileSize bytes = bytes.length := Nat.mod_eq_of_lt (by omega)
    rw [narrowBuffer_of_le _ hsmall] at hff hresult
    have hfill : ∀ text, bytes = utf8 text → transferred (4 * bytes.length % 2 ^ 32) = 2 * (utf16 text).length ∧
        ∀ c ∈ text, KeptChar env.order c := by
      intro text hutf8
      have hok := @ConvertUTF8toUTF16_utf8 text (GetFileSize bytes) (by rw [← hutf8, hsize])
      rw [← hutf8, hresult] at hok
      rw [Conversion.conversionOK.inj hok, hsize] at hroom hall
      exact (written_iff hroom).mp (hall text (.inl hutf8))
    exact ⟨hsmall, ⟨text, isText_utf8 htext hff⟩, fun text hutf8 => (hfill text hutf8).1,
      fun text hutf8 => (hfill text hutf8).2⟩
  · exact absurd htext (hcases.mp hful text)
  · exact absurd hful hcases

theorem fulfils_of_filledText (h : s.disk (sisFile env fileName) = some bytes)
    (hlittle : ¬ markLittle env.order <+: bytes) (hbig : ¬ markBig env.order <+: bytes)
    (hfilled : FilledText env.order bytes) : Fulfils env fileName s bytes := by
  have hsize : GetFileSize bytes = bytes.length := Nat.mod_eq_of_lt (by have := hfilled.read; omega)
  have hok : ∀ text, bytes = utf8 text →
      ConvertUTF8toUTF16 (GetFileSize bytes) bytes = .conversionOK (utf16 (text.map lenientChar)) := by
    intro text hutf8
    conv_lhs => rw [hutf8]
    exact ConvertUTF8toUTF16_utf8 text (by rw [← hutf8, hsize])
  have hcases := fulfils_unmarked h hlittle hbig
  obtain ⟨text, hutf8⟩ := hfilled.utf8
  rw [narrowBuffer_of_le _ hfilled.read, hok text hutf8] at hcases
  obtain ⟨rest, hroom, hiff⟩ := hcases
  rw [hiff]
  refine ⟨⟨text, .inl hutf8⟩, fun text' htext' => ?_⟩
  have hutf8' := isText_utf8 htext' (ff_of_conversionOK (hok text hutf8))
  have hsame := Conversion.conversionOK.inj ((hok text hutf8).symm.trans (hok text' hutf8'))
  rw [hsame, hsize] at hroom ⊢
  exact (written_iff hroom).mpr ⟨hfilled.filled text' hutf8', hfilled.kept text' hutf8'⟩

/-- The converted buffer is what the memory held where that agrees with what is read. -/
theorem narrowBuffer_eq {buffer : Bytes} (hlen : buffer.length = GetFileSize bytes)
    (hfront : bytes.take (transferred (GetFileSize bytes)) <+: buffer) :
    ∃ memory hmemory, narrowBuffer (env.withMemory memory hmemory) s bytes = buffer := by
  refine ⟨fun _ n => if n = buffer.length then buffer else List.replicate n 0, fun k n => ?_, ?_⟩
  · dsimp only
    split
    · next heq => exact heq.symm
    · exact List.length_replicate
  · rw [narrowBuffer, ReadFile, Env.withMemory]
    dsimp only
    rw [if_pos hlen.symm]
    exact List.prefix_iff_eq_append.mp hfront

/-- A PKG or text file is read as it should be, whatever memory holds, where its content is one of these, and nowhere
else. -/
theorem fulfils_iff (h : s.disk (sisFile env fileName) = some bytes) :
    (∀ memory hmemory, Fulfils (env.withMemory memory hmemory) fileName s bytes) ↔ Fits env.order bytes := by
  unfold Fits
  by_cases hlittle : markLittle env.order <+: bytes
  · have hiff := fun memory hmemory => @fulfils_little (env.withMemory memory hmemory) _ _ _ h hlittle
    simp only [hlittle, not_both_marks hlittle, true_and, false_and, or_false, not_true_eq_false]
    exact ⟨fun hful => (hiff env.memory env.length_memory).mp (hful _ _), fun htext _ _ => (hiff _ _).mpr htext⟩
  by_cases hbig : markBig env.order <+: bytes
  · have hiff := fun memory hmemory => @fulfils_big (env.withMemory memory hmemory) _ _ _ h hbig
    simp only [hlittle, hbig, true_and, false_and, false_or, or_false, not_true_eq_false, and_false]
    exact ⟨fun hful => (hiff env.memory env.length_memory).mp (hful _ _), fun htext _ _ => (hiff _ _).mpr htext⟩
  simp only [hlittle, hbig, false_and, false_or, not_false_eq_true, true_and]
  constructor
  · intro hful
    by_cases htext : ∃ text, IsText bytes text
    · obtain ⟨text, htext⟩ := htext
      exact .inl (filledText_of_fulfils env h hlittle hbig htext (hful _ _))
    · refine .inr ⟨not_exists.mp htext, fun buffer hlen hfront => ?_⟩
      obtain ⟨memory, hmemory, hbuffer⟩ := narrowBuffer_eq env (s := s) hlen hfront
      have hcases := @fulfils_unmarked (env.withMemory memory hmemory) _ _ _ h hlittle hbig
      rw [hbuffer] at hcases
      rw [← ConvertUTF8toUTF16_truncated _ _ hlen.le]
      rcases hresult : ConvertUTF8toUTF16 (GetFileSize bytes) buffer with units | _ | _
      · rw [hresult] at hcases
        obtain ⟨rest, -, hiff⟩ := hcases
        exact absurd (hiff.mp (hful _ _)).1 htext
      · rfl
      · rw [hresult] at hcases
        exact absurd (hful _ _) hcases
  · rintro (hfilled | hcut) memory hmemory
    · exact fulfils_of_filledText (env.withMemory memory hmemory) h hlittle hbig hfilled
    · have htruncated := hcut.truncated (narrowBuffer (env.withMemory memory hmemory) s bytes)
        (length_narrowBuffer _) (List.prefix_append _ _)
      have hcases := @fulfils_unmarked (env.withMemory memory hmemory) _ _ _ h hlittle hbig
      rw [(ConvertUTF8toUTF16_truncated _ _ (length_narrowBuffer _).le).mpr htruncated] at hcases
      exact hcases.mpr hcut.noText

end

/-! ### One letter -/

/-- The file `a` with a content. -/
def textState (bytes : Bytes) : State := { sampleState with disk := Function.update sampleState.disk [97] (some bytes) }

/-- The text `a` in UTF-8 comes out with two bytes of the buffer behind it. -/
theorem letter_not_fulfilled : ¬ Fulfils (sampleEnv .little) [97] (textState [0x61]) [0x61] := by
  intro h
  obtain ⟨used, s', hrun, hdisk⟩ := h.text ['a'] (Or.inl rfl)
  obtain ⟨rfl, rfl⟩ : _ = used ∧ _ = s' := ⟨Except.ok.inj (Prod.mk.inj hrun).1, (Prod.mk.inj hrun).2⟩
  have hbytes := Option.some.inj hdisk
  exact absurd (congrArg List.length hbytes) (by decide)

/-- A mark with the character U+0000 and a letter behind it, on memory that holds 7 everywhere. -/
theorem fulfils_iff_letter : Fulfils ((sampleEnv .little).withMemory (filledMemory 7) (length_filledMemory 7)) [97]
    (textState [0xff, 0xfe, 0, 0, 0x41, 0]) [0xff, 0xfe, 0, 0, 0x41, 0] :=
  (fulfils_iff (sampleEnv .little) (s := textState [0xff, 0xfe, 0, 0, 0x41, 0]) rfl).mpr
    (.inl ⟨⟨[0x41, 0], rfl⟩, [Char.ofNat 0, 'A'], rfl⟩) _ _

end GnuPoc.Crtsis
