import GnuPoc.Rcomp.ResourceItem
import GnuPoc.Rcomp.UnicodeLimit

/-!
# GnuPoc.Rcomp.ValueChecks — what is asserted of a value (`rcostrm.cpp`, `numval.cpp`, `astring.cpp`)

The values of a resource are streamed out in order, each with the assertions of its type.  A text that is no number,
and a 16-bit text that `CompressUnicode` has no room for, end the program instead, and what comes behind is not
reached.
-/

namespace GnuPoc.Rcomp

open GnuPoc.Lib

/-! ### Numbers -/

def isHex (Source : String) : Bool := ['0', 'x'].isPrefixOf Source.toList

/-- The number of characters in front of the digits. -/
def numberStart (Source : String) : ℕ :=
  let start := if isHex Source then 2 else 0
  if ['-'].isPrefixOf (Source.toList.drop start) then start + 1 else start

def numberChars (Source : String) : List Char := Source.toList.drop (numberStart Source)

/-- The text passes the assertions of `ConvertToNatural`: a hexadecimal number has no other characters, and the
digits end, or a character that is none is met, before 10000. -/
def ReadsNumber (Source : String) : Prop :=
  if isHex Source then
    (∀ c ∈ numberChars Source, isxdigit c = true) ∧ numberStart Source + (numberChars Source).length < 10000
  else 10000 ≤ numberStart Source + (numberChars Source).length →
    ∃ c ∈ (numberChars Source).take (10000 - numberStart Source), c.isDigit = false

/-- The text cannot be converted, which `ConvertToNatural` reports. -/
def NoNumber (Source : String) : Prop := isHex Source = false ∧ ∃ c ∈ numberChars Source, c.isDigit = false

section
variable {bHexNumber : Bool}

def isNumberDigit (bHexNumber : Bool) (c : Char) : Bool := if bHexNumber then isxdigit c else c.isDigit

theorem nextDigit_ok {c : Char} (h : isNumberDigit bHexNumber c = true) (n : UInt64) :
    ∃ n', nextDigit bHexNumber n c = .ok n' := by
  unfold isNumberDigit at h
  unfold nextDigit
  split
  next hhex =>
    rw [if_pos hhex] at h
    exact ⟨_, if_pos h⟩
  next hhex =>
    rw [if_neg hhex] at h
    exact ⟨_, if_pos h⟩

theorem nextDigit_error {c : Char} (h : isNumberDigit bHexNumber c = false) (n : UInt64) :
    nextDigit bHexNumber n c = .error (if bHexNumber then .assertion else .exits 1) := by
  unfold isNumberDigit at h
  unfold nextDigit
  cases bHexNumber with
  | true => exact if_neg (Bool.eq_false_iff.mp h)
  | false => exact if_neg (Bool.eq_false_iff.mp h)

theorem digits_ok {chars : List Char} : ∀ {pos : ℕ} (n : UInt64), (∀ c ∈ chars, isNumberDigit bHexNumber c = true) →
    pos + chars.length < 10000 → ∃ n', digits bHexNumber pos chars n = .ok n' := by
  induction chars with
  | nil => exact fun n _ _ => ⟨n, rfl⟩
  | cons c chars ih =>
    intro pos n hall hpos
    rw [List.length_cons] at hpos
    obtain ⟨n', hn'⟩ := nextDigit_ok (hall c (List.mem_cons_self ..)) n
    have hassert : decide (pos + 1 < 10000) = true := decide_eq_true (by omega)
    rw [digits, hn', run_ok_bind, hassert, assert_true, run_ok_bind]
    exact ih n' (fun c' hc' => hall c' (List.mem_cons_of_mem _ hc')) (by omega)

theorem digits_long {chars : List Char} : ∀ {pos : ℕ} (n : UInt64), pos < 10000 → 10000 ≤ pos + chars.length →
    (∀ c ∈ chars.take (10000 - pos), isNumberDigit bHexNumber c = true) →
    digits bHexNumber pos chars n = .error .assertion := by
  induction chars with
  | nil =>
    intro pos n hpos hlong
    rw [List.length_nil] at hlong
    omega
  | cons c chars ih =>
    intro pos n hpos hlong hall
    rw [List.length_cons] at hlong
    have htake : (c :: chars).take (10000 - pos) = c :: chars.take (10000 - (pos + 1)) := by
      rw [show 10000 - pos = 10000 - (pos + 1) + 1 by omega, List.take_succ_cons]
    rw [htake] at hall
    obtain ⟨n', hn'⟩ := nextDigit_ok (hall c (List.mem_cons_self ..)) n
    rw [digits, hn', run_ok_bind]
    by_cases hnext : pos + 1 < 10000
    · rw [decide_eq_true hnext, assert_true, run_ok_bind]
      exact ih n' hnext (by omega) fun c' hc' => hall c' (List.mem_cons_of_mem _ hc')
    · rw [decide_eq_false hnext]
      rfl

theorem digits_bad {chars : List Char} : ∀ {pos : ℕ} (n : UInt64), pos < 10000 →
    (∃ c ∈ chars.take (10000 - pos), isNumberDigit bHexNumber c = false) →
    digits bHexNumber pos chars n = .error (if bHexNumber then .assertion else .exits 1) := by
  induction chars with
  | nil =>
    rintro pos n hpos ⟨c, hc, -⟩
    rw [List.take_nil] at hc
    exact absurd hc List.not_mem_nil
  | cons c chars ih =>
    intro pos n hpos hbad
    have htake : (c :: chars).take (10000 - pos) = c :: chars.take (10000 - (pos + 1)) := by
      rw [show 10000 - pos = 10000 - (pos + 1) + 1 by omega, List.take_succ_cons]
    rw [htake, List.exists_mem_cons_iff] at hbad
    rw [digits]
    cases hc : isNumberDigit bHexNumber c with
    | false => rw [nextDigit_error hc, run_error_bind]
    | true =>
      obtain ⟨n', hn'⟩ := nextDigit_ok hc n
      have hrest := hbad.resolve_left (by rw [hc]; exact Bool.noConfusion)
      have hnext : pos + 1 < 10000 := by
        obtain ⟨c', hc', -⟩ := hrest
        by_contra hlong
        rw [show 10000 - (pos + 1) = 0 by omega, List.take_zero] at hc'
        exact absurd hc' List.not_mem_nil
      rw [hn', run_ok_bind, decide_eq_true hnext, assert_true, run_ok_bind]
      exact ih n' hnext hrest

end

theorem numberStart_lt (Source : String) : numberStart Source < 10000 := by
  unfold numberStart
  dsimp only
  split
  · split
    · omega
    · omega
  · split
    · omega
    · omega

theorem convertToNatural_digits (Source : String) : ConvertToNatural Source = (do
    let LongValue ← digits (isHex Source) (numberStart Source) (numberChars Source) 0
    .ok ⟨LongValue, if ['-'].isPrefixOf (Source.toList.drop (if isHex Source then 2 else 0)) then
      (LongValue ^^^ 0xFFFFFFFF) + 1 else LongValue⟩) := rfl

/-- **The assertions of `ConvertToNatural`** fail exactly on a text that does not read as a number is read. -/
theorem convertToNatural_cases (Source : String) :
    (ReadsNumber Source ∧ ¬ NoNumber Source ∧ ∃ n, ConvertToNatural Source = .ok n) ∨
      (ReadsNumber Source ∧ NoNumber Source ∧ ConvertToNatural Source = .error (.exits 1)) ∨
      (¬ ReadsNumber Source ∧ ConvertToNatural Source = .error .assertion) := by
  have hstart := numberStart_lt Source
  rw [convertToNatural_digits]
  by_cases hall : ∀ c ∈ (numberChars Source).take (10000 - numberStart Source), isNumberDigit (isHex Source) c = true
  · by_cases hlong : 10000 ≤ numberStart Source + (numberChars Source).length
    · refine .inr (.inr ⟨?_, by rw [digits_long 0 hstart hlong hall]; rfl⟩)
      unfold ReadsNumber
      cases hhex : isHex Source with
      | true =>
        rw [if_pos rfl]
        exact fun h => absurd h.2 (not_lt.mpr hlong)
      | false =>
        rw [if_neg Bool.false_ne_true]
        intro h
        obtain ⟨c, hc, hdigit⟩ := h hlong
        have hgood := hall c hc
        rw [hhex] at hgood
        exact Bool.false_ne_true (hdigit.symm.trans hgood)
    · rw [List.take_of_length_le (by omega)] at hall
      obtain ⟨n, hn⟩ := digits_ok 0 hall (not_le.mp hlong)
      refine .inl ⟨?_, ?_, by rw [hn]; exact ⟨_, rfl⟩⟩
      · unfold ReadsNumber
        cases hhex : isHex Source with
        | true =>
          rw [if_pos rfl]
          rw [hhex] at hall
          exact ⟨hall, not_le.mp hlong⟩
        | false =>
          rw [if_neg Bool.false_ne_true]
          exact fun h => absurd h hlong
      · rintro ⟨hhex, c, hc, hdigit⟩
        have hgood := hall c hc
        rw [hhex] at hgood
        exact Bool.false_ne_true (hdigit.symm.trans hgood)
  · have hbad : ∃ c ∈ (numberChars Source).take (10000 - numberStart Source), isNumberDigit (isHex Source) c = false := by
      by_contra hnone
      refine hall fun c hc => ?_
      by_contra hdigit
      exact hnone ⟨c, hc, Bool.not_eq_true _ ▸ hdigit⟩
    have hrun := digits_bad 0 hstart hbad
    obtain ⟨c, hc, hdigit⟩ := hbad
    cases hhex : isHex Source with
    | true =>
      rw [hhex] at hrun hdigit
      refine .inr (.inr ⟨?_, by rw [hrun]; rfl⟩)
      unfold ReadsNumber
      rw [hhex, if_pos rfl]
      exact fun h => Bool.false_ne_true (hdigit.symm.trans (h.1 c (List.mem_of_mem_take hc)))
    | false =>
      rw [hhex] at hrun hdigit
      refine .inr (.inl ⟨?_, ⟨hhex, c, List.mem_of_mem_take hc, hdigit⟩, by rw [hrun]; rfl⟩)
      unfold ReadsNumber
      rw [hhex, if_neg Bool.false_ne_true]
      exact fun _ => ⟨c, hc, hdigit⟩

/-! ### Room for a compressed text -/

/-- `CompressUnicode` fills the room of the string before it has read it all. -/
def NoRoom (words : List UInt16) : Prop := words ≠ [] ∧ 2 * words.length ≤ Reader.start.readCost [] words.dropLast

theorem compressUnicode_cases (words : List UInt16) :
    (¬ NoRoom words ∧ ∃ buffer, CompressUnicode (2 * words.length) words = .ok buffer) ∨
      (NoRoom words ∧ CompressUnicode (2 * words.length) words = .error (.exits 1)) := by
  obtain ⟨c, hok, hready, hsize, -, hiff, -⟩ := TUnicodeCompressor.doCompressL_limit (2 * words.length) words
  obtain ⟨c', hok', -⟩ := TUnicodeCompressor.doCompressL_flush (2 * words.length) hready hsize
  have hroom : NoRoom words ↔ c.iUnicodeWords ≠ words.length := by
    unfold NoRoom
    rw [ne_eq c.iUnicodeWords, hiff, not_or, not_lt]
  rw [hroom]
  unfold CompressUnicode
  rw [hok, run_ok_bind, hok', run_ok_bind]
  by_cases hread : c.iUnicodeWords ≠ words.length
  · exact .inr ⟨hread, if_pos hread⟩
  · exact .inl ⟨hread, _, if_neg hread⟩

/-- The call of `CompressUnicode` for an item. -/
def compressItem : Item → Run Unit
  | .StreamOutCompressingIfReducesSize words => do
    let _ ← CompressUnicode (2 * words.length) words
    .ok ()
  | _ => .ok ()

theorem forM_cons_run {α : Type} (f : α → Run Unit) (x : α) (xs : List α) :
    (x :: xs).forM f = f x >>= fun _ => xs.forM f := rfl

theorem forM_append_run {α : Type} (f : α → Run Unit) (xs ys : List α) :
    (xs ++ ys).forM f = xs.forM f >>= fun _ => ys.forM f := by
  rw [List.forM_eq_forM, List.forM_append]

/-! ### Values -/

/-- A value that is streamed out; an array has no link for it. -/
structure StreamedValue where
  type : ItemType
  text : String
  link : UInt64
  inArray : Bool

section
variable (conv : Conversions)

/-- `StreamOutSingleValue`, and the assertion in front of it in an array. -/
def StreamedValue.StreamOut (v : StreamedValue) : Run (List Item) := do
  assert (v.inArray = true → v.type ≠ .L_SRLINK)
  StreamOutSingleValue conv v.text v.link v.type

/-- The value is streamed out and compressed. -/
def StreamedValue.stream (v : StreamedValue) : Run Unit := do
  let items ← v.StreamOut conv
  items.forM compressItem

/-- What is asserted of a text of a type. -/
def PassesAs (text : String) : ItemType → Prop
  | .L_LTEXT8 => text.length ≤ 255
  | .L_LTEXT16 => text.length ≤ 255
  | .L_BUF8 => 0 < text.length
  | .L_BYTE => 0 < text.length ∧ ReadsNumber text
  | .L_WORD => 0 < text.length ∧ ReadsNumber text
  | .L_LONG => 0 < text.length ∧ ReadsNumber text
  | .L_DOUBLE => 0 < text.length
  | .L_LINK => 0 < text.length → IsDecNatural text = true → ReadsNumber text
  | .L_LLINK => 0 < text.length → IsDecNatural text = true → ReadsNumber text
  | _ => True

/-- The value passes all assertions that are made of it. -/
def StreamedValue.Passes (v : StreamedValue) : Prop := (v.inArray = true → v.type ≠ .L_SRLINK) ∧ PassesAs v.text v.type

/-- A text of a type ends the program with a message. -/
def EndsAs (text : String) : ItemType → Prop
  | .L_BYTE => NoNumber text
  | .L_WORD => NoNumber text
  | .L_LONG => NoNumber text
  | .L_TEXT16 => NoRoom (conv.Export text ++ [0])
  | .L_LTEXT16 => NoRoom (conv.Export text)
  | .L_BUF16 => NoRoom (conv.Export text)
  | _ => False

def StreamedValue.Ends (v : StreamedValue) : Prop := EndsAs conv v.text v.type

end

/-- How a value is streamed out: it may pass its assertions, and then end the program or not. -/
def StreamsAs (passes ends : Prop) (result : Run Unit) : Prop :=
  (passes ∧ ¬ ends ∧ result = .ok ()) ∨ (passes ∧ ends ∧ result = .error (.exits 1)) ∨
    (¬ passes ∧ result = .error .assertion)

section
variable {conv : Conversions}

theorem forM_plain {items : List Item} (h : ∀ item ∈ items, compressItem item = .ok ()) :
    items.forM compressItem = .ok () := by
  induction items with
  | nil => rfl
  | cons item items ih =>
    rw [forM_cons_run, h item (List.mem_cons_self ..), run_ok_bind]
    exact ih fun item' hitem' => h item' (List.mem_cons_of_mem _ hitem')

theorem number_streams (type : DataType) {text : String} : StreamsAs (0 < text.length ∧ ReadsNumber text) (NoNumber text)
    (do
      let items ← (do
        assert (0 < text.length)
        let bytes ← numberBytes type text
        (.ok [.StreamIn bytes] : Run (List Item)))
      items.forM compressItem) := by
  by_cases hpos : 0 < text.length
  · rw [decide_eq_true hpos, assert_true, run_ok_bind, numberBytes]
    rcases convertToNatural_cases text with ⟨hreads, hnumber, n, hn⟩ | ⟨hreads, hnumber, hn⟩ | ⟨hreads, hn⟩
    · rw [hn]
      exact .inl ⟨⟨hpos, hreads⟩, hnumber, rfl⟩
    · rw [hn]
      exact .inr (.inl ⟨⟨hpos, hreads⟩, hnumber, rfl⟩)
    · rw [hn]
      exact .inr (.inr ⟨fun h => hreads h.2, rfl⟩)
  · rw [decide_eq_false hpos]
    exact .inr (.inr ⟨fun h => hpos h.1, rfl⟩)

theorem not_noNumber {text : String} (h : IsDecNatural text = true) : ¬ NoNumber text := by
  rintro ⟨hhex, c, hc, hdigit⟩
  have hchars : numberChars text = if ['-'].isPrefixOf text.toList then text.toList.drop 1 else text.toList := by
    unfold numberChars numberStart
    rw [hhex]
    simp only [Bool.false_eq_true, if_false, List.drop_zero]
    split
    · rfl
    · rfl
  rw [hchars] at hc
  exact Bool.false_ne_true (hdigit.symm.trans (List.all_eq_true.mp h c hc))

theorem link_streams (type : DataType) (text : String) (link : Item) (hlink : compressItem link = .ok ()) :
    StreamsAs (0 < text.length → IsDecNatural text = true → ReadsNumber text) False (do
      let items ← (if text.length = 0 then .ok []
        else if IsDecNatural text then do
          let bytes ← numberBytes type text
          (.ok [.StreamIn bytes] : Run (List Item))
        else .ok [link])
      items.forM compressItem) := by
  by_cases hpos : 0 < text.length
  · rw [if_neg (by omega)]
    cases hdec : IsDecNatural text with
    | true =>
      rw [if_pos rfl, numberBytes]
      rcases convertToNatural_cases text with ⟨hreads, -, n, hn⟩ | ⟨-, hnumber, -⟩ | ⟨hreads, hn⟩
      · rw [hn]
        exact .inl ⟨fun _ _ => hreads, not_false, rfl⟩
      · exact absurd hnumber (not_noNumber hdec)
      · rw [hn]
        exact .inr (.inr ⟨fun h => hreads (h hpos rfl), rfl⟩)
    | false =>
      rw [if_neg Bool.false_ne_true]
      exact .inl ⟨fun _ h => Bool.noConfusion h, not_false, forM_plain (List.forall_mem_singleton.mpr hlink)⟩
  · rw [if_pos (by omega)]
    exact .inl ⟨fun h => absurd h hpos, not_false, rfl⟩

theorem text_streams (words : List UInt16) (front : List Item) (hfront : ∀ item ∈ front, compressItem item = .ok ()) :
    StreamsAs True (NoRoom words)
      ((front ++ [Item.StreamOutCompressingIfReducesSize words]).forM compressItem) := by
  rw [forM_append_run, forM_plain hfront, run_ok_bind]
  show StreamsAs True (NoRoom words) (compressItem (.StreamOutCompressingIfReducesSize words) >>= fun _ => .ok ())
  rw [compressItem]
  rcases compressUnicode_cases words with ⟨hroom, buffer, hbuffer⟩ | ⟨hroom, herror⟩
  · rw [hbuffer]
    exact .inl ⟨trivial, hroom, rfl⟩
  · rw [herror]
    exact .inr (.inl ⟨trivial, hroom, rfl⟩)

theorem assert_streams {condition : Prop} [Decidable condition] {passes ends : Prop} {rest : Run (List Item)}
    (h : StreamsAs passes ends (do
      let items ← rest
      items.forM compressItem)) :
    StreamsAs (condition ∧ passes) ends (do
      let items ← (do
        assert condition
        rest)
      items.forM compressItem) := by
  by_cases hcondition : condition
  · rw [decide_eq_true hcondition, assert_true, run_ok_bind]
    rcases h with ⟨hpasses, hends, hrun⟩ | ⟨hpasses, hends, hrun⟩ | ⟨hpasses, hrun⟩
    · exact .inl ⟨⟨hcondition, hpasses⟩, hends, hrun⟩
    · exact .inr (.inl ⟨⟨hcondition, hpasses⟩, hends, hrun⟩)
    · exact .inr (.inr ⟨fun hboth => hpasses hboth.2, hrun⟩)
  · rw [decide_eq_false hcondition]
    exact .inr (.inr ⟨fun hboth => hcondition hboth.1, rfl⟩)

theorem bytes_stream (bytes : Bytes) : StreamsAs True False (do
    let items ← (.ok [.StreamIn bytes] : Run (List Item))
    items.forM compressItem) :=
  .inl ⟨trivial, not_false, rfl⟩

theorem StreamsAs.congr {passes passes' ends : Prop} {result : Run Unit} (h : StreamsAs passes ends result)
    (hpasses : passes ↔ passes') : StreamsAs passes' ends result := by
  rw [StreamsAs, ← hpasses]
  exact h

/-- **A text of any type.** -/
theorem singleValue_streams (text : String) (link : UInt64) (type : ItemType) :
    StreamsAs (PassesAs text type) (EndsAs conv text type) (do
      let items ← StreamOutSingleValue conv text link type
      items.forM compressItem) := by
  cases type with
  | L_BYTE => exact number_streams .L_BYTE
  | L_WORD => exact number_streams .L_WORD
  | L_LONG => exact number_streams .L_LONG
  | L_DOUBLE => exact (assert_streams (bytes_stream _)).congr (iff_of_eq (and_true _))
  | L_TEXT8 => exact bytes_stream _
  | L_LTEXT8 => exact (assert_streams (bytes_stream _)).congr (iff_of_eq (and_true _))
  | L_BUF8 => exact (assert_streams (bytes_stream _)).congr (iff_of_eq (and_true _))
  | L_TEXT16 => exact text_streams _ [] (fun _ h => absurd h List.not_mem_nil)
  | L_LTEXT16 =>
    exact (assert_streams (text_streams (conv.Export text) [.StreamIn [UInt8.ofNat (conv.Export text).length]]
      (List.forall_mem_singleton.mpr rfl))).congr (iff_of_eq (and_true _))
  | L_BUF16 => exact text_streams _ [] (fun _ h => absurd h List.not_mem_nil)
  | L_LINK => exact link_streams .L_WORD text (.WordLink text) rfl
  | L_LLINK => exact link_streams .L_LONG text (.LongLink text) rfl
  | L_SRLINK => exact bytes_stream _

theorem value_streams (v : StreamedValue) : StreamsAs v.Passes (v.Ends conv) (v.stream conv) :=
  assert_streams (singleValue_streams v.text v.link v.type)

end

/-! ### The values of a resource -/

mutual

/-- The values of an item in the order of `StreamOut`. -/
def ResourceItem.values : ResourceItem → List StreamedValue
  | .simple item value _ link => [⟨item.iItemType, value, link, false⟩]
  | .array item values => values.map fun value => ⟨item.iItemType, value, 0, true⟩
  | .structType _ (.mk _ items) => valuesOfItems items
  | .structArray _ arrays => valuesOfArrays arrays

def valuesOfItems : List ResourceItem → List StreamedValue
  | [] => []
  | p :: items => p.values ++ valuesOfItems items

def valuesOfArrays : List ResourceItemArray → List StreamedValue
  | [] => []
  | .mk _ items :: arrays => valuesOfItems items ++ valuesOfArrays arrays

end

def ResourceItemArray.values (ria : ResourceItemArray) : List StreamedValue := valuesOfItems ria.items

/-- A run for its end alone. -/
def ended {α : Type} (x : Run α) : Run Unit := do
  let _ ← x
  .ok ()

theorem ended_map {α β : Type} (x : Run α) (f : α → β) : ended (x >>= fun a => .ok (f a)) = ended x := by
  cases x with
  | error e => rfl
  | ok a => rfl

theorem ended_two {α β γ : Type} (x : Run α) (y : Run β) (f : α → β → γ) :
    ended (do
      let a ← x
      let b ← y
      .ok (f a b)) = ended x >>= fun _ => ended y := by
  cases x with
  | error e => rfl
  | ok a => exact ended_map y (f a)

section
variable (conv : Conversions)

def StreamedValue.check (v : StreamedValue) : Run Unit := ended (v.StreamOut conv)

theorem streamValues_check (type : ItemType) (values : List String) : ended (streamValues conv type values) =
    (values.map fun value => (⟨type, value, 0, true⟩ : StreamedValue)).forM (StreamedValue.check conv) := by
  induction values with
  | nil => rfl
  | cons value values ih =>
    rw [streamValues, List.map_cons, forM_cons_run, ← ih, StreamedValue.check,
      StreamedValue.StreamOut]
    by_cases hlink : type ≠ .L_SRLINK
    · have hassert : true = true → type ≠ .L_SRLINK := fun _ => hlink
      rw [decide_eq_true hlink, decide_eq_true hassert, assert_true, run_ok_bind, run_ok_bind]
      exact ended_two _ _ _
    · have hassert : ¬ (true = true → type ≠ .L_SRLINK) := fun h => hlink (h rfl)
      rw [decide_eq_false hlink, decide_eq_false hassert]
      rfl

mutual

/-- **An item is streamed out as its values are**, up to where the run stops. -/
theorem item_check : ∀ p : ResourceItem, ended (p.StreamOut conv) = p.values.forM (StreamedValue.check conv)
  | .simple item value valueSet link => by
    have hassert : (false = true → item.iItemType ≠ .L_SRLINK) := fun h => Bool.noConfusion h
    rw [ResourceItem.StreamOut, ResourceItem.values, forM_cons_run, StreamedValue.check,
      StreamedValue.StreamOut, decide_eq_true hassert, assert_true, run_ok_bind]
    cases StreamOutSingleValue conv value link item.iItemType with
    | error e => rfl
    | ok items => rfl
  | .array item values => by
    rw [ResourceItem.StreamOut, ResourceItem.values, ← streamValues_check]
    exact ended_map _ _
  | .structType item (.mk iLenType items) => by
    rw [ResourceItem.StreamOut, ResourceItem.values, ← items_check items]
    exact ended_map _ _
  | .structArray item arrays => by
    rw [ResourceItem.StreamOut, ResourceItem.values, ← arrays_check arrays]
    exact ended_map _ _

theorem items_check : ∀ items : List ResourceItem,
    ended (streamItems conv items) = (valuesOfItems items).forM (StreamedValue.check conv)
  | [] => rfl
  | p :: items => by
    rw [streamItems, valuesOfItems, forM_append_run, ← item_check p, ← items_check items]
    exact ended_two _ _ _

theorem arrays_check : ∀ arrays : List ResourceItemArray,
    ended (streamArrays conv arrays) = (valuesOfArrays arrays).forM (StreamedValue.check conv)
  | [] => rfl
  | .mk iLenType items :: arrays => by
    rw [streamArrays, valuesOfArrays, forM_append_run, ← items_check items, ← arrays_check arrays]
    exact ended_two _ _ _

end

end

/-! ### All values of a resource -/

section
variable (conv : Conversions)

/-- Every value passes its assertions, up to one that ends the program. -/
def AllPass : List StreamedValue → Prop
  | [] => True
  | v :: vs => v.Passes ∧ (¬ v.Ends conv → AllPass vs)

end

section
variable {conv : Conversions}

theorem values_stream (vs : List StreamedValue) :
    StreamsAs (AllPass conv vs) (∃ v ∈ vs, v.Ends conv) (vs.forM (StreamedValue.stream conv)) := by
  induction vs with
  | nil =>
    refine .inl ⟨trivial, ?_, rfl⟩
    rintro ⟨v, hv, -⟩
    exact absurd hv List.not_mem_nil
  | cons v vs ih =>
    rw [forM_cons_run, List.exists_mem_cons_iff, AllPass]
    rcases @value_streams conv v with ⟨hpasses, hends, hv⟩ | ⟨hpasses, hends, hv⟩ | ⟨hpasses, hv⟩
    · rw [hv, run_ok_bind]
      rcases ih with ⟨hall, hnone, hrun⟩ | ⟨hall, hsome, hrun⟩ | ⟨hall, hrun⟩
      · exact .inl ⟨⟨hpasses, fun _ => hall⟩, fun h => h.elim hends hnone, hrun⟩
      · exact .inr (.inl ⟨⟨hpasses, fun _ => hall⟩, .inr hsome, hrun⟩)
      · exact .inr (.inr ⟨fun h => hall (h.2 hends), hrun⟩)
    · rw [hv]
      exact .inr (.inl ⟨⟨hpasses, fun h => absurd hends h⟩, .inl hends, rfl⟩)
    · rw [hv]
      exact .inr (.inr ⟨fun h => hpasses h.1, rfl⟩)

theorem streamOut_of_values {ria : ResourceItemArray} (h : ria.values.forM (StreamedValue.stream conv) = .ok ()) :
    ∃ items, ria.StreamOut conv = .ok items := by
  have hcheck : ∀ vs : List StreamedValue, vs.forM (StreamedValue.stream conv) = .ok () →
      vs.forM (StreamedValue.check conv) = .ok () := by
    intro vs
    induction vs with
    | nil => exact fun _ => rfl
    | cons v vs ih =>
      rw [forM_cons_run, forM_cons_run]
      intro hrun
      obtain ⟨_, hv, hrest⟩ := bind_eq_ok.mp hrun
      obtain ⟨items, hitems, -⟩ := bind_eq_ok.mp hv
      rw [StreamedValue.check, hitems]
      exact ih hrest
  have hitems := items_check conv ria.items
  rw [hcheck (valuesOfItems ria.items) h] at hitems
  obtain ⟨items, hok, -⟩ := bind_eq_ok.mp hitems
  exact ⟨items, hok⟩

end

end GnuPoc.Rcomp
