import GnuPoc.Pkg.LexerRuns

/-!
# GnuPoc.Pkg.StringToken — quoted segments, escapes and what `GetStringToken` makes of them

A string is written as quoted segments and numeric escapes, in any order in which no two segments stand side
by side.  Behind it `GetStringToken` should leave the string, and the character that follows as the current one
(`Restored`).  Where `<` follows, it attempts to read a further escape; when that leaves no trace is
`attempt_iff`.
-/

namespace GnuPoc.Pkg

open GnuPoc.Lib

/-! ### Strings as they are written -/

/-- The characters between two quotation marks. -/
structure Segment where
  chars : List UInt16
  clean : ∀ c ∈ chars, c ≠ 0 ∧ c ≠ 34

/-- `<n>` for a character `n`. -/
structure Escape where
  literal : List UInt16
  n : UInt32
  spelled : Literal literal n.toNat
  nonzero : n ≠ 0
  unicode : ¬ (0x80 ≤ n ∧ n ≤ 0x9F)

inductive StringItem
  | quoted (segment : Segment)
  | escape (e : Escape)

def StringItem.text : StringItem → List UInt16
  | quoted segment => 34 :: (segment.chars ++ [34])
  | escape e => 60 :: (e.literal ++ [62])

def StringItem.string : StringItem → WStr
  | quoted segment => segment.chars.map UInt16.toUInt32
  | escape e => [e.n]

def StringItem.isQuoted : StringItem → Bool
  | quoted _ => true
  | escape _ => false

def itemsText (items : List StringItem) : List UInt16 := items.flatMap StringItem.text

def itemsString (items : List StringItem) : WStr := items.flatMap StringItem.string

/-- Segments and escapes, without two segments side by side. -/
def Alternates (items : List StringItem) : Prop :=
  items.IsChain fun a b => a.isQuoted = false ∨ b.isQuoted = false

/-- `<`, a literal and `>` stand at the front. -/
def StartsEscape (text : List UInt16) : Prop :=
  ∃ literal z rest, Literal literal z ∧ text = 60 :: (literal ++ 62 :: rest)

/-- The string does not go on in `follow`. -/
structure Follows (items : List StringItem) (follow : List UInt16) : Prop where
  noEscape : ¬ StartsEscape follow
  noSegment : follow.head? = some 34 → ∃ segment, items.getLast? = some (.quoted segment)

/-- What the string stands for was read, and the lexer is back at what follows it. -/
def Restored (string : WStr) (follow : List UInt16) (result : Except LexStop Bool × Lexer) : Prop :=
  result.1 = .ok true ∧ cstring result.2.m_tokenValue = string ∧ result.2.At follow

/-! ### When that is so -/

/-- The number at a text fits `temp`. -/
def FitsTemp (text : List UInt16) : Prop :=
  (numberTail text.tail).length + 1 < MAX_STRING ∨
    ((numberTail text.tail).length + 1 = MAX_STRING ∧ numberRest text.tail = [])

/-- The number lies in memory exactly as the string begins. -/
def Overlaid (n : UInt64) (string : WStr) : Prop :=
  ([n.toUInt32, (n >>> 32).toUInt32] ++ string.drop 2).take string.length = string

/-- `<` and `text` behind a string: another `<` follows at once, or a number with another `<` behind it
that happens to be what the string begins with. -/
def Harmless (string : WStr) (erange : Bool) (text : List UInt16) : Prop :=
  (text.head? = some 60 ∧ FitsTemp text) ∨
  ((numberTail text.tail).length + 1 < MAX_STRING ∧ (numberRest text.tail).head? = some 60 ∧
    (convertTemp (numberTemp text)).converted = true ∧ (convertTemp (numberTemp text)).erange = false ∧
    erange = false ∧ Overlaid (convertTemp (numberTemp text)).value string)

/-- The literals of the escapes fit `temp`, and `errno` does not stop them. -/
def EscapesRead (erange : Bool) (items : List StringItem) : Prop :=
  ∀ e, StringItem.escape e ∈ items → e.literal.length < MAX_STRING ∧ erange = false

structure Restores (items : List StringItem) (follow : List UInt16) (erange : Bool) : Prop where
  escapes : EscapesRead erange items
  segment : follow.head? = some 34 → ∀ e, StringItem.escape e ∉ items
  bracket : ∀ text, follow = 60 :: text → Harmless (itemsString items) erange text

/-! ### Texts -/

@[simp] theorem itemsText_cons (item : StringItem) (items : List StringItem) :
    itemsText (item :: items) = item.text ++ itemsText items := rfl

@[simp] theorem itemsString_cons (item : StringItem) (items : List StringItem) :
    itemsString (item :: items) = item.string ++ itemsString items := rfl

theorem toUInt32_ne_zero {c : UInt16} (h : c ≠ 0) : c.toUInt32 ≠ 0 := by
  intro hc
  exact h (by simpa [← UInt16.toNat_inj, ← UInt32.toNat_inj] using hc)

theorem toUInt32_eq_iff {c d : UInt16} : c.toUInt32 = d.toUInt32 ↔ c = d := by
  simp [← UInt16.toNat_inj, ← UInt32.toNat_inj]

theorem StringItem.string_ne_zero (item : StringItem) : ∀ c ∈ item.string, c ≠ 0 := by
  rcases item with segment | e
  · intro c hc
    obtain ⟨d, hd, rfl⟩ := List.mem_map.mp hc
    exact toUInt32_ne_zero (segment.clean d hd).1
  · intro c hc
    rw [List.mem_singleton.mp hc]
    exact e.nonzero

/-! ### Single steps -/

variable {s : Lexer}

theorem readQuoted_segment {segment : Segment} {rest : List UInt16} {t : StringState} {str : WStr}
    (hs : s.At (34 :: (segment.chars ++ 34 :: rest))) (hstr : Begins str s.m_tokenValue)
    (ht : t.wCount = str.length) (hlen : str.length + segment.chars.length + 1 ≤ MAX_STRING) :
    ∃ s', readQuoted t s = (.ok ⟨str.length + segment.chars.length, true, t.escapeChars⟩, s') ∧ s'.At rest ∧
      s'.erange = s.erange ∧ Begins (str ++ segment.chars.map UInt16.toUInt32) s'.m_tokenValue := by
  have hstore := storeChars_begins (segment.chars.map UInt16.toUInt32) hstr (by simpa using hlen)
  have hcount : (storeChars (segment.chars.map UInt16.toUInt32) t.wCount []).1 =
      str.length + segment.chars.length := by
    rw [ht, storeChars_fst _ _ [] s.m_tokenValue, hstore.1, List.length_map]
  have hnext : s.next.At (segment.chars ++ 34 :: rest) := by
    have := s.at_next
    rwa [hs.file] at this
  have hclean : ∀ c ∈ segment.chars, (c.toUInt32 != 0 && c.toUInt32 != 34) = true := by
    intro c hc
    have h0 := toUInt32_ne_zero (segment.clean c hc).1
    have h34 : c.toUInt32 ≠ 34 := fun h => (segment.clean c hc).2 (toUInt32_eq_iff.mp (h.trans rfl))
    simp [h0, h34]
  have hwhile := getWhile_eq (p := fun c => c != 0 && c != 34) hnext hclean rfl
  let s₂ : Lexer := { s.next.moved (34 :: rest) with
    m_tokenValue := (storeChars (segment.chars.map UInt16.toUInt32) t.wCount s.m_tokenValue).2 }
  rw [readQuoted, Run.bind_ok (getNextChar_eq s), readSegment, Run.bind_ok hwhile, hcount]
  refine ⟨s₂.next, ?_, s₂.at_next, rfl, ?_⟩
  · change (GetNextChar >>= fun _ => pure _) s₂ = _
    rw [Run.bind_ok (getNextChar_eq s₂)]
    rfl
  · change Begins _ (storeChars _ t.wCount s.m_tokenValue).2
    rw [ht]
    exact hstore.2

/-- A literal in front of `>`. -/
theorem getNumericToken_literal {literal rest : List UInt16} {z : ℤ} (hz : Literal literal z)
    (hs : s.At (literal ++ 62 :: rest)) (hlen : literal.length < MAX_STRING) :
    GetNumericToken s = storeTemp (literal.map UInt16.toUInt32) s.passed ∧ s.passed.m_file = 62 :: rest := by
  obtain ⟨hne, htail⟩ := hz.tail_numberChar
  obtain ⟨c, chars, rfl⟩ := List.exists_cons_of_ne_nil hne
  have hfile : s.m_file = chars ++ 62 :: rest := by simpa using hs.file
  have hchars : numberTail s.m_file = chars := by
    rw [hfile]
    exact numberTail_append htail rfl
  have hrest : numberRest s.m_file = 62 :: rest := by
    rw [hfile]
    exact numberRest_append htail rfl
  refine ⟨?_, hrest⟩
  rw [getNumericToken_ok (by rw [hchars]; simpa using hlen) (by rw [hrest]; simp), hchars, hs.pkgChar]
  rfl

theorem Escape.converted (e : Escape) :
    convertTemp (e.literal.map UInt16.toUInt32) = ⟨e.n.toUInt64, true, false⟩ := by
  have hn := e.n.toNat_lt
  rw [convertTemp_literal e.spelled, convertedInt, if_neg (by simp; omega), ofInt_natCast]
  congr 1
  simp

/-- A turn of `ParseEscapeChars` at an escape. -/
theorem escapeTurn_escape {e : Escape} {rest : List UInt16} {str : WStr}
    (hs : s.At (60 :: (e.literal ++ 62 :: rest))) (hstr : HoldsString str s.m_tokenValue)
    (hlen : str.length + 2 ≤ MAX_STRING) (hread : e.literal.length < MAX_STRING ∧ s.erange = false) :
    ∃ s', escapeTurn s = (.ok true, s') ∧ s'.At rest ∧ s'.erange = false ∧
      HoldsString (str ++ [e.n]) s'.m_tokenValue := by
  have hnext : s.next.At (e.literal ++ 62 :: rest) := by
    have := s.at_next
    rwa [hs.file] at this
  obtain ⟨hnum, hfile⟩ := getNumericToken_literal e.spelled hnext hread.1
  let s₁ : Lexer := s.next.passed.stored (e.literal.map UInt16.toUInt32)
  have herange : s₁.erange = false := by
    simp [s₁, Lexer.stored, Lexer.passed, e.converted, hread.2]
  have hmem : s₁.m_tokenValue = storeNumber e.n.toUInt64 s.m_tokenValue := by
    simp [s₁, Lexer.stored, Lexer.passed, e.converted]
  have hfile₁ : s₁.m_file = 62 :: rest := hfile
  have hrun : (GetNextChar >>= fun _ => GetNumericToken) s = (.ok (), s₁.next) := by
    rw [Run.bind_ok (getNextChar_eq s), hnum, storeTemp_eq, e.converted, if_neg (by simp), if_neg ?_]
    change ¬ s₁.erange = true
    simp [herange]
  let s₂ : Lexer := { s₁.next with m_tokenValue := appendChar str e.n.toUInt64 s₁.m_tokenValue }
  have hholds : HoldsString (str ++ [e.n]) s₂.m_tokenValue := by
    have hmem₁ : s₁.m_tokenValue.length = MAX_STRING := by
      rw [hmem]
      exact storeNumber_length hstr.1
    have hnum : e.n.toUInt64.toUInt32 ≠ 0 := by simpa using e.nonzero
    simpa using appendChar_holds hmem₁ hstr.2.1 hnum hlen
  refine ⟨s₂.next, ?_, ?_, herange, hholds⟩
  · have hnum : dwNumber s₁.next.m_tokenValue = e.n.toUInt64 := by
      rw [Lexer.next_m_tokenValue, hmem, dwNumber_storeNumber]
    have hclose : s₁.next.m_pkgChar = 62 := by
      rw [Lexer.next, Lexer.moved_m_pkgChar, hfile₁]
      rfl
    have hunicode : ¬ (0x80 ≤ e.n.toUInt64 && e.n.toUInt64 ≤ 0x9F) = true := by
      have := e.unicode
      simpa [UInt32.le_iff_toNat_le, UInt64.le_iff_toNat_le] using this
    rw [escapeTurn_ok hrun, if_pos hclose, storeEscape_eq, hnum, if_neg hunicode, hstr.cstring]
    simp [s₂]
  · have := s₂.at_next
    simpa [s₂, hfile₁] using this

/-! ### The end of the string -/

/-- The loop of `GetStringToken` ends with the string, at what follows it. -/
def LoopRestores (string : WStr) (follow : List UInt16) (result : Except LexStop StringState × Lexer) : Prop :=
  ∃ t s, result = (.ok t, s) ∧ t.done = true ∧ cstring (s.m_tokenValue.set t.wCount 0) = string ∧ s.At follow

theorem not_loopRestores_error {string : WStr} {follow : List UInt16} {e : LexStop} :
    ¬ LoopRestores string follow (.error e, s) := by
  rintro ⟨t, s', h, -⟩
  simp at h

theorem not_loopRestores_of_onward {string : WStr} {follow : List UInt16} {m : Lex StringState}
    (hm : Run.Keeps Onward m) (hs : s.m_file.length < follow.tail.length) :
    ¬ LoopRestores string follow (m s) := by
  rintro ⟨t, s', h, -, -, hat⟩
  have := hm s
  rw [h, Onward, hat.file] at this
  omega

theorem onward_onChar {α : Type} (c : UInt32) {m m' : Lex α} (h : Run.Keeps Onward m) (h' : Run.Keeps Onward m') :
    Run.Keeps Onward (onChar c m m') := .branch h h'

/-- The end of a turn. -/
def loopEnd (n : ℕ) (t : StringState) : Lex StringState :=
  if t.escapeChars = 0 then pure t else onChar 34 (stringLoop n t) (pure t)

theorem stringLoop_succ (n : ℕ) (t : StringState) : stringLoop (n + 1) t = stringTurn t >>= loopEnd n := rfl

theorem onward_loopEnd (n : ℕ) (t : StringState) : Run.Keeps Onward (loopEnd n t) :=
  .ite (fun _ => .pure onward_refl _) fun _ => .branch (onward_stringLoop n t) (.pure onward_refl _)

theorem not_loopRestores_segment {string : WStr} {follow : List UInt16} (hs : s.m_pkgChar = 34)
    (hfile : s.m_file = follow.tail) (n : ℕ) (t : StringState) :
    ¬ LoopRestores string follow (stringLoop n t s) := by
  rintro ⟨t', s', h, -, -, hat⟩
  rcases n with - | n
  · simp [stringLoop] at h
  · rw [stringLoop_succ] at h
    obtain ⟨t₂, s₂, hturn, hrest⟩ := Run.ok_of_bind h
    obtain ⟨t₁, s₁, hquoted, hescapes⟩ := Run.ok_of_bind hturn
    rw [onChar_pos hs] at hquoted
    have hlt := readQuoted_shorter hquoted
    have hon₁ : Onward s₁ s₂ := by
      have := onward_onChar 60 (onward_readEscapes t₁) (.pure onward_refl t₁) s₁
      rwa [hescapes] at this
    have hon₂ : Onward s₂ s' := by
      have := onward_loopEnd n t₂ s₂
      rwa [hrest] at this
    have := onward_trans _ _ _ hon₁ hon₂
    rw [Onward, hat.file, ← hfile] at this
    omega

/-- What follows the escapes of a turn. -/
def afterEscapes (n : ℕ) (t : StringState) (escapeChars : UInt16) : Lex StringState :=
  loopEnd n (countEscapes t escapeChars)

theorem countEscapes_escapeChars (t : StringState) (escapeChars : UInt16) :
    (countEscapes t escapeChars).escapeChars = escapeChars := by
  rw [countEscapes]
  split
  · next h => exact h.symm
  · rfl

theorem onward_afterEscapes (n : ℕ) (t : StringState) (escapeChars : UInt16) :
    Run.Keeps Onward (afterEscapes n t escapeChars) := onward_loopEnd n _

theorem stringLoop_bracket (hs : s.m_pkgChar = 60) (n : ℕ) (t : StringState) :
    stringLoop (n + 1) t s = (escapeLoop (s.m_file.length + 1) 0 >>= afterEscapes n t)
      { s with m_tokenValue := s.m_tokenValue.set t.wCount 0 } := by
  have hne : s.m_pkgChar ≠ 34 := by
    rw [hs]
    decide
  rw [stringLoop_succ, stringTurn, Run.bind_assoc, Run.bind_ok (onChar_neg hne (readQuoted t) (pure t)), Run.bind_apply,
    onChar_pos hs, readEscapes, Run.bind_ok (Run.update_apply _ s), Run.bind_apply, Run.bind_apply]
  rcases h : escapeLoop (s.m_file.length + 1) 0 { s with m_tokenValue := s.m_tokenValue.set t.wCount 0 } with
    ⟨e | found, s'⟩
  · have : ParseEscapeChars { s with m_tokenValue := s.m_tokenValue.set t.wCount 0 } = (.error e, s') := h
    rw [this]
  · have : ParseEscapeChars { s with m_tokenValue := s.m_tokenValue.set t.wCount 0 } = (.ok found, s') := h
    rw [this]
    rfl

theorem stringLoop_quoted {s s' : Lexer} {t t' : StringState} (hs : s.m_pkgChar = 34)
    (hquoted : readQuoted t s = (.ok t', s')) (n : ℕ) :
    stringLoop (n + 1) t s =
      if s'.m_pkgChar = 60 then (escapeLoop (s'.m_file.length + 1) 0 >>= afterEscapes n t')
        { s' with m_tokenValue := s'.m_tokenValue.set t'.wCount 0 }
      else loopEnd n t' s' := by
  split
  · next h60 =>
    have hne : s'.m_pkgChar ≠ 34 := by
      rw [h60]
      decide
    rw [← stringLoop_bracket h60 n t', stringLoop_succ, stringLoop_succ, stringTurn, stringTurn, Run.bind_assoc,
      Run.bind_assoc, Run.bind_ok ((onChar_pos hs _ _).trans hquoted),
      Run.bind_ok (onChar_neg hne (readQuoted t') (pure t'))]
  · next h60 =>
    rw [stringLoop_succ, stringTurn, Run.bind_assoc, Run.bind_ok ((onChar_pos hs _ _).trans hquoted),
      Run.bind_ok (onChar_neg h60 (readEscapes t') (pure t'))]

/-- Where no further segment is read, the loop ends as it should when the current character and the string are
those of what follows. -/
theorem afterEscapes_iff {string : WStr} {follow : List UInt16} {t : StringState}
    {escapeChars : UInt16} (hcount : (countEscapes t escapeChars).wCount = string.length)
    (hdone : (countEscapes t escapeChars).done = true) (hfile : s.m_file = follow.tail)
    (hfollow : firstChar follow ≠ 34) (n : ℕ) :
    LoopRestores string follow (afterEscapes n t escapeChars s) ↔
      s.m_pkgChar = firstChar follow ∧ cstring (s.m_tokenValue.set string.length 0) = string := by
  have hends : LoopRestores string follow (.ok (countEscapes t escapeChars), s) ↔
      s.m_pkgChar = firstChar follow ∧ cstring (s.m_tokenValue.set string.length 0) = string := by
    constructor
    · rintro ⟨t', s', h, -, hstring, hat⟩
      simp only [Prod.mk.injEq, Except.ok.injEq] at h
      obtain ⟨rfl, rfl⟩ := h
      rw [hcount] at hstring
      exact ⟨hat.pkgChar, hstring⟩
    · rintro ⟨hchar, hstring⟩
      exact ⟨_, s, rfl, hdone, by rwa [hcount], hchar, hfile⟩
  rw [afterEscapes, loopEnd]
  split
  · exact hends
  · by_cases h34 : s.m_pkgChar = 34
    · rw [onChar_pos h34]
      constructor
      · intro h
        exact absurd h (not_loopRestores_segment h34 hfile n _)
      · rintro ⟨hchar, -⟩
        exact absurd (hchar.symm.trans h34) hfollow
    · rw [onChar_neg h34]
      exact hends

/-! ### The attempt to read an escape that is none -/

/-- A number over the string leaves the string when it is what the string begins with. -/
theorem cstring_storeNumber_iff {str : WStr} {memory : List UInt32} (h : HoldsString str memory) (n : UInt64) :
    cstring ((storeNumber n memory).set str.length 0) = str ↔ Overlaid n str := by
  have hlen := h.length
  obtain ⟨hmem, hne, rest, rfl⟩ := h
  have hfull : (storeNumber n (str ++ 0 :: rest)).length = MAX_STRING := storeNumber_length hmem
  have htake : (storeNumber n (str ++ 0 :: rest)).take str.length =
      ([n.toUInt32, (n >>> 32).toUInt32] ++ str.drop 2).take str.length := by
    rcases str with - | ⟨c, - | ⟨d, str⟩⟩
    · rfl
    · rfl
    · simp [storeNumber]
  rw [List.set_eq_take_append_cons_drop, if_pos (by omega), htake, Overlaid, cstring_eq_iff _ hne]
  rw [← htake, List.length_take]
  omega

/-- `wcstoul` finds no number at `<`. -/
theorem convertTemp_bracket (w : WStr) : (convertTemp (60 :: w)).converted = false := by
  have hspace : iswspace 60 = false := rfl
  have hdigit : iswdigit 60 = false := rfl
  have hxdigit : iswxdigit 60 = false := rfl
  have hhex : ∀ w, startsHex (60 :: w) = false := by
    intro w
    simp [startsHex, towlower]
  have hcut : cstring (60 :: w) = 60 :: cstring w := by simp [cstring]
  rw [convertTemp, hcut]
  split <;> simp [wcstoul, hspace, hdigit, hxdigit, hhex, numberDigits, digitsNumber]

theorem firstChar_eq_iff {c : UInt16} (hc : c ≠ 0) (follow : List UInt16) :
    firstChar follow = c.toUInt32 ↔ follow.head? = some c := by
  rcases follow with - | ⟨d, follow⟩
  · have h0 : (0 : UInt32) ≠ c.toUInt32 := (toUInt32_ne_zero hc).symm
    simpa using h0
  · rw [firstChar_cons, List.head?_cons, Option.some.injEq]
    exact toUInt32_eq_iff

section
variable {str : WStr} {text : List UInt16} {s : Lexer} {t : StringState} {found : UInt16}

/-- The attempt has been given up, with what is in memory and the current character. -/
theorem attempt_givenUp {s' : Lexer} (hs : s.At (60 :: text)) (hturn : escapeTurn s = (.ok false, s'))
    (hfile : s'.m_file = text) (hcount : (countEscapes t found).wCount = str.length)
    (hdone : (countEscapes t found).done = true) (m n : ℕ) :
    LoopRestores str (60 :: text) ((escapeLoop (m + 1) found >>= afterEscapes n t) s) ↔
      s'.m_pkgChar = 60 ∧ cstring (s'.m_tokenValue.set str.length 0) = str := by
  have hloop : escapeLoop (m + 1) found s = (.ok found, s') := by
    have hbracket : s.m_pkgChar = 60 := hs.pkgChar
    rw [escapeLoop, onChar_pos hbracket, Run.bind_ok hturn]
    rfl
  have hfollow : firstChar (60 :: text) ≠ 34 := by
    rw [firstChar_cons]
    decide
  rw [Run.bind_ok hloop]
  exact afterEscapes_iff hcount hdone hfile hfollow n

theorem attempt_throws {s' : Lexer} {e : LexException} (hs : s.At (60 :: text))
    (hstr : HoldsString str s.m_tokenValue) (hnum : GetNumericToken s.next = (.error (.throws e), s'))
    (hchar : s'.m_pkgChar = firstChar text) (hmem : s'.m_tokenValue.length = MAX_STRING)
    (hcount : (countEscapes t found).wCount = str.length) (hdone : (countEscapes t found).done = true) (m n : ℕ) :
    LoopRestores str (60 :: text) ((escapeLoop (m + 1) found >>= afterEscapes n t) s) ↔ text.head? = some 60 := by
  have hrun : (GetNextChar >>= fun _ => GetNumericToken) s = (.error (.throws e), s') := by
    rw [Run.bind_ok (getNextChar_eq s), hnum]
  have hholds := wcscpy_holds hmem hstr.2.1 hstr.length
  rw [attempt_givenUp hs (escapeTurn_throws hrun) (by simpa using hs.file) hcount hdone]
  have hrestored : cstring ((wcscpy s'.m_tokenValue str).set str.length 0) = str :=
    (hholds.begins.terminate hstr.2.1 hstr.length).cstring
  simp only [hstr.cstring, hrestored, and_true, hchar]
  exact firstChar_eq_iff (c := 60) (by decide) text

theorem attempt_error {s' : Lexer} {e : LexStop} (hs : s.At (60 :: text)) (hturn : escapeTurn s = (.error e, s'))
    (m n : ℕ) : ¬ LoopRestores str (60 :: text) ((escapeLoop (m + 1) found >>= afterEscapes n t) s) := by
  have hbracket : s.m_pkgChar = 60 := hs.pkgChar
  have hloop : escapeLoop (m + 1) found s = (.error e, s') := by
    rw [escapeLoop, onChar_pos hbracket, Run.bind_error hturn]
  rw [Run.bind_error hloop]
  exact not_loopRestores_error

theorem attempt_goesOn {s' : Lexer} (hs : s.At (60 :: text)) (hturn : escapeTurn s = (.ok true, s'))
    (hfile : s'.m_file.length < text.length) (m n : ℕ) :
    ¬ LoopRestores str (60 :: text) ((escapeLoop (m + 1) found >>= afterEscapes n t) s) := by
  have hbracket : s.m_pkgChar = 60 := hs.pkgChar
  have hloop : escapeLoop (m + 1) found s = escapeLoop m (found + 1) s' := by
    rw [escapeLoop, onChar_pos hbracket, Run.bind_ok hturn]
    rfl
  have hrun : (escapeLoop (m + 1) found >>= afterEscapes n t) s =
      (escapeLoop m (found + 1) >>= afterEscapes n t) s' := by
    rw [Run.bind_apply, Run.bind_apply, hloop]
  rw [hrun]
  refine not_loopRestores_of_onward ?_ hfile
  exact .bind onward_trans (onward_escapeLoop _ _) fun _ => onward_afterEscapes _ _ _

/-- The attempt has read a number: it is the number of an escape, or it stays in memory. -/
theorem attempt_number (hs : s.At (60 :: text)) (hstr : HoldsString str s.m_tokenValue)
    (hnum : GetNumericToken s.next = (.ok (), ((s.moved text).passed.stored (numberTemp text)).next))
    (hrest : numberRest text.tail ≠ []) (hcount : (countEscapes t found).wCount = str.length)
    (hdone : (countEscapes t found).done = true) (m n : ℕ) :
    LoopRestores str (60 :: text) ((escapeLoop (m + 1) found >>= afterEscapes n t) s) ↔
      (numberRest text.tail).head? = some 60 ∧ Overlaid (convertTemp (numberTemp text)).value str := by
  have hrun : (GetNextChar >>= fun _ => GetNumericToken) s =
      (.ok (), ((s.moved text).passed.stored (numberTemp text)).next) := by
    rw [Run.bind_ok (getNextChar_eq s), hnum]
  have hturn := escapeTurn_ok hrun
  have hchar : ((s.moved text).passed.stored (numberTemp text)).next.m_pkgChar = firstChar (numberRest text.tail) := rfl
  rw [hchar] at hturn
  by_cases hclose : firstChar (numberRest text.tail) = 62
  · refine iff_of_false ?_ ?_
    · have hlen := length_numberRest_le text.tail
      have hpos := List.length_pos_iff.mpr hrest
      rw [if_pos hclose, storeEscape_eq] at hturn
      split at hturn
      · exact attempt_error hs hturn m n
      · refine attempt_goesOn hs hturn ?_ m n
        change (numberRest text.tail).tail.tail.length < text.length
        simp only [List.length_tail] at hlen ⊢
        omega
    · rintro ⟨hhead, -⟩
      rw [(firstChar_eq_iff (by decide) _).mpr hhead] at hclose
      exact absurd hclose (by decide)
  · rw [if_neg hclose] at hturn
    rw [attempt_givenUp hs hturn (by simpa using hs.file) hcount hdone,
      ← firstChar_eq_iff (c := 60) (by decide), ← cstring_storeNumber_iff hstr]
    exact Iff.rfl

/-- `<` behind a string leaves the string, and is the current character again, only where it is harmless. -/
theorem attempt_iff (hs : s.At (60 :: text)) (hstr : HoldsString str s.m_tokenValue)
    (hcount : (countEscapes t found).wCount = str.length) (hdone : (countEscapes t found).done = true) (m n : ℕ) :
    LoopRestores str (60 :: text) ((escapeLoop (m + 1) found >>= afterEscapes n t) s) ↔
      Harmless str s.erange text := by
  have hnext : s.next = s.moved text := by rw [Lexer.next, hs.file, List.tail_cons]
  have hread := readTemp_eq (s.moved text)
  rw [Lexer.moved_m_file] at hread
  by_cases hlong : MAX_STRING ≤ (numberTail text.tail).length
  · rw [if_pos hlong] at hread
    have hrun : (GetNextChar >>= fun _ => GetNumericToken) s = (.error .outOfBounds, (s.moved text).passed) := by
      rw [Run.bind_ok (getNextChar_eq s), hnext, GetNumericToken, Run.bind_error hread]
    refine iff_of_false (attempt_error hs (escapeTurn_outOfBounds hrun) m n) ?_
    rintro (⟨-, hfit | hfit⟩ | ⟨hlen, -⟩) <;> omega
  rw [if_neg hlong] at hread
  by_cases hend : numberRest text.tail = []
  · rw [if_pos hend] at hread
    have hnum : GetNumericToken s.next = (.error (.throws .ErrReadFailed), (s.moved text).passed) := by
      rw [hnext, GetNumericToken, Run.bind_error hread]
    rw [attempt_throws hs hstr hnum rfl hstr.1 hcount hdone]
    constructor
    · intro hhead
      refine .inl ⟨hhead, ?_⟩
      by_cases hlt : (numberTail text.tail).length + 1 < MAX_STRING
      · exact .inl hlt
      · exact .inr ⟨by omega, hend⟩
    · rintro (⟨hhead, -⟩ | ⟨-, hhead, -⟩)
      · exact hhead
      · simp [hend] at hhead
  rw [if_neg hend] at hread
  by_cases hfull : MAX_STRING ≤ (numberTail text.tail).length + 1
  · rw [if_pos hfull] at hread
    have hrun : (GetNextChar >>= fun _ => GetNumericToken) s = (.error .outOfBounds, (s.moved text).passed) := by
      rw [Run.bind_ok (getNextChar_eq s), hnext, GetNumericToken, Run.bind_error hread]
    refine iff_of_false (attempt_error hs (escapeTurn_outOfBounds hrun) m n) ?_
    rintro (⟨-, hfit | ⟨-, hfit⟩⟩ | ⟨hlen, -⟩)
    · omega
    · exact hend hfit
    · omega
  rw [if_neg hfull] at hread
  have hfits : (numberTail text.tail).length + 1 < MAX_STRING := by omega
  have hnum : GetNumericToken s.next = storeTemp (numberTemp text) (s.moved text).passed := by
    rw [hnext, GetNumericToken, Run.bind_ok hread]
    rfl
  rw [storeTemp_eq] at hnum
  by_cases hconv : (convertTemp (numberTemp text)).converted = false
  · rw [if_pos hconv] at hnum
    rw [attempt_throws hs hstr hnum rfl (storeNumber_length hstr.1) hcount hdone]
    constructor
    · exact fun hhead => .inl ⟨hhead, .inl hfits⟩
    · rintro (⟨hhead, -⟩ | ⟨-, -, hconv', -⟩)
      · exact hhead
      · rw [hconv] at hconv'
        cases hconv'
  rw [if_neg hconv] at hnum
  have hbracket : text.head? ≠ some 60 := by
    intro hhead
    obtain ⟨text', rfl⟩ := List.head?_eq_some_iff.mp hhead
    exact hconv (convertTemp_bracket _)
  by_cases hrange : ((s.moved text).passed.stored (numberTemp text)).erange = true
  · rw [if_pos hrange] at hnum
    rw [attempt_throws hs hstr hnum rfl (storeNumber_length hstr.1) hcount hdone]
    refine iff_of_false hbracket ?_
    rintro (⟨hhead, -⟩ | ⟨-, -, -, herange, herrno, -⟩)
    · exact hbracket hhead
    · simp [Lexer.stored, Lexer.passed, herange, herrno] at hrange
  rw [if_neg hrange] at hnum
  have herange : s.erange = false ∧ (convertTemp (numberTemp text)).erange = false := by
    simpa [Lexer.stored, Lexer.passed] using hrange
  rw [attempt_number hs hstr hnum hend hcount hdone]
  constructor
  · rintro ⟨hhead, hoverlaid⟩
    exact .inr ⟨hfits, hhead, by simpa using hconv, herange.2, herange.1, hoverlaid⟩
  · rintro (⟨hhead, -⟩ | ⟨-, hhead, -, -, -, hoverlaid⟩)
    · exact absurd hhead hbracket
    · exact ⟨hhead, hoverlaid⟩

end

/-- An escape that cannot be read: its literal is too long, or `errno` is already set. -/
theorem not_loopRestores_escape {e : Escape} {rest follow : List UInt16} {string : WStr}
    {t : StringState} {found : UInt16} (hs : s.At (60 :: (e.literal ++ 62 :: rest)))
    (hread : ¬ (e.literal.length < MAX_STRING ∧ s.erange = false))
    (hrest : follow.length ≤ rest.length) (m n : ℕ) :
    ¬ LoopRestores string follow ((escapeLoop (m + 1) found >>= afterEscapes n t) s) := by
  obtain ⟨hne, htail⟩ := e.spelled.tail_numberChar
  obtain ⟨c, chars, hliteral⟩ := List.exists_cons_of_ne_nil hne
  have hbracket : s.m_pkgChar = 60 := hs.pkgChar
  have hat : s.next.At (e.literal ++ 62 :: rest) := by
    have := s.at_next
    rwa [hs.file] at this
  by_cases hlong : MAX_STRING ≤ e.literal.length
  · have hfile : s.next.m_file = chars ++ 62 :: rest := by
      rw [hat.file, hliteral]
      rfl
    have hchars : numberTail s.next.m_file = chars := by
      rw [hfile]
      exact numberTail_append (by simpa [hliteral] using htail) rfl
    have hnumberRest : numberRest s.next.m_file = 62 :: rest := by
      rw [hfile]
      exact numberRest_append (by simpa [hliteral] using htail) rfl
    have hread : readTemp s.next = (.error .outOfBounds, s.next.passed) := by
      rw [readTemp_eq, hchars, hnumberRest]
      split
      · rfl
      · rw [if_neg (by simp), if_pos (by simpa [hliteral] using hlong)]
    have hrun : (GetNextChar >>= fun _ => GetNumericToken) s = (.error .outOfBounds, s.next.passed) := by
      rw [Run.bind_ok (getNextChar_eq s), GetNumericToken, Run.bind_error hread]
    have hloop : escapeLoop (m + 1) found s = (.error .outOfBounds, s.next.passed) := by
      rw [escapeLoop, onChar_pos hbracket, Run.bind_error (escapeTurn_outOfBounds hrun)]
    rw [Run.bind_error hloop]
    exact not_loopRestores_error
  · have herange : s.erange = true := by
      by_contra h
      exact hread ⟨by omega, by simpa using h⟩
    obtain ⟨hnum, -⟩ := getNumericToken_literal e.spelled hat (by omega)
    rw [storeTemp_eq, e.converted, if_neg (by simp), if_pos (by simp [Lexer.stored, Lexer.passed, herange])] at hnum
    have hrun : (GetNextChar >>= fun _ => GetNumericToken) s = (.error (.throws .ErrNumberOutOfRange),
        s.next.passed.stored (e.literal.map UInt16.toUInt32)) := by
      rw [Run.bind_ok (getNextChar_eq s), hnum]
    have hturn := escapeTurn_throws hrun
    have hchar : firstChar (e.literal ++ 62 :: rest) ≠ 34 := by
      have hquote := e.spelled.head_ne_quote
      rw [hliteral] at hquote ⊢
      exact fun h => hquote (toUInt32_eq_iff.mp (h.trans rfl))
    obtain ⟨s₁, hturn₁, hfile₁, hchar₁⟩ :
        ∃ s₁, escapeTurn s = (.ok false, s₁) ∧ s₁.m_file = s.m_file ∧ s₁.m_pkgChar ≠ 34 :=
      ⟨_, hturn, rfl, by simpa [Lexer.stored, Lexer.passed, hat.pkgChar] using hchar⟩
    have hloop : escapeLoop (m + 1) found s = (.ok found, s₁) := by
      rw [escapeLoop, onChar_pos hbracket, Run.bind_ok hturn₁]
      rfl
    have hend : afterEscapes n t found s₁ = (.ok (countEscapes t found), s₁) := by
      rw [afterEscapes, loopEnd]
      split
      · rfl
      · rw [onChar_neg hchar₁]
        rfl
    rintro ⟨t', s', h, -, -, hat'⟩
    rw [Run.bind_ok hloop, hend] at h
    obtain ⟨-, rfl⟩ := Prod.mk.inj h
    have hlen := congrArg List.length (hat'.file.symm.trans (hfile₁.trans hs.file))
    simp at hlen
    omega

end GnuPoc.Pkg
