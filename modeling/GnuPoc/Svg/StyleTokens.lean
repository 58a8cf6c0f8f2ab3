import GnuPoc.Lib.LittleEndian

/-!
# GnuPoc.Svg.StyleTokens — the tokens of a style (`style-tokenizer.l`)

The scanner takes the text in blocks, and a block when it needs a byte that it does not have.  The tokens are those of
the text as a whole; how much of the text has been taken when a token has been scanned depends on where it stands.
-/

namespace GnuPoc.Svg.Style

open GnuPoc.Lib

/-! ### The scanner -/

def colon : UInt8 := 58

def semicolon : UInt8 := 59

/-- `{Whitespace}`. -/
def isWhitespace (c : UInt8) : Bool := c = 32 || c = 9 || c = 13 || c = 10

/-- `[^ \t\r\n:;]`. -/
def isPlain (c : UInt8) : Bool := !(isWhitespace c || c = colon || c = semicolon)

inductive Token
  | eof
  | char (c : UInt8)
  | string (styletext : Bytes)
  deriving DecidableEq

/-- The buffer between two tokens: what it holds that is not scanned yet, or `YY_BUFFER_EOF_PENDING`, when the last
string has been taken to the end of the text. -/
inductive Buffer
  | normal (unscanned : Bytes)
  | eofPending
  deriving DecidableEq

structure Scanner where
  styleStrPtr : Bytes
  buffer : Buffer
  deriving DecidableEq

def initStyleTokenizer (str : Bytes) (s : Scanner) : Scanner := { s with styleStrPtr := str }

/-- What `YY_INPUT` is asked for.  That it is less behind a string of as many bytes in hand is left out: such a string
is too long for `curStringToken` in any case. -/
def YY_READ_BUF_SIZE : ℕ := 8192

/-- The longest match of the rule for strings, from the bytes in hand on. -/
def scanString (styletext styleStrPtr : Bytes) : Bytes → Bytes × Scanner
  | [] =>
    if styleStrPtr = [] then (styletext, ⟨[], .eofPending⟩)
    else scanString styletext (styleStrPtr.drop YY_READ_BUF_SIZE) (styleStrPtr.take YY_READ_BUF_SIZE)
  | c :: buffer =>
    if isPlain c then scanString (styletext ++ [c]) styleStrPtr buffer
    else (styletext, ⟨styleStrPtr, .normal (c :: buffer)⟩)
termination_by buffer => (styleStrPtr.length, buffer.length)
decreasing_by
  · have hpos : 0 < styleStrPtr.length := List.length_pos_iff.mpr ‹_›
    rw [List.length_drop]
    exact Prod.Lex.left _ _ (Nat.sub_lt hpos (by decide))
  · exact Prod.Lex.right _ (Nat.lt_succ_self _)

/-- A token from the buffer and from the blocks behind it; the end of the text restarts the scanner. -/
def scanToken (styleStrPtr : Bytes) : Bytes → Token × Scanner
  | [] =>
    if styleStrPtr = [] then (.eof, ⟨[], .normal []⟩)
    else scanToken (styleStrPtr.drop YY_READ_BUF_SIZE) (styleStrPtr.take YY_READ_BUF_SIZE)
  | c :: buffer =>
    if c = colon ∨ c = semicolon then (.char c, ⟨styleStrPtr, .normal buffer⟩)
    else if isWhitespace c then scanToken styleStrPtr buffer
    else ((scanString [c] styleStrPtr buffer).map .string id)
termination_by buffer => (styleStrPtr.length, buffer.length)
decreasing_by
  · have hpos : 0 < styleStrPtr.length := List.length_pos_iff.mpr ‹_›
    rw [List.length_drop]
    exact Prod.Lex.left _ _ (Nat.sub_lt hpos (by decide))
  · exact Prod.Lex.right _ (Nat.lt_succ_self _)

/-- The next token, before `stylelex` copies it. -/
def nextToken (s : Scanner) : Token × Scanner :=
  match s.buffer with
  | .normal unscanned => scanToken s.styleStrPtr unscanned
  | .eofPending => (.eof, { s with buffer := .normal [] })

/-! ### The tokens of a text -/

/-- What the scanner comes to before it is at an end. -/
def Scanner.ahead (s : Scanner) : Bytes :=
  match s.buffer with
  | .normal unscanned => unscanned ++ s.styleStrPtr
  | .eofPending => []

/-- The first token of a text, and the text behind it. -/
def firstToken (text : Bytes) : Token × Bytes :=
  match text.dropWhile isWhitespace with
  | [] => (.eof, [])
  | c :: rest =>
    if c = colon ∨ c = semicolon then (.char c, rest)
    else (.string (c :: rest.takeWhile isPlain), rest.dropWhile isPlain)

theorem not_isWhitespace {c : UInt8} (h : c = colon ∨ c = semicolon) : ¬ isWhitespace c = true := by
  rcases h with rfl | rfl
  all_goals decide

theorem scanString_eq (styletext styleStrPtr buffer : Bytes) :
    (scanString styletext styleStrPtr buffer).1 = styletext ++ (buffer ++ styleStrPtr).takeWhile isPlain ∧
      (scanString styletext styleStrPtr buffer).2.ahead = (buffer ++ styleStrPtr).dropWhile isPlain := by
  fun_induction scanString styletext styleStrPtr buffer with
  | case1 styletext => exact ⟨by simp, rfl⟩
  | case2 styletext styleStrPtr hne ih => rwa [List.take_append_drop] at ih
  | case3 styletext styleStrPtr c buffer hplain ih =>
    rw [List.cons_append, List.takeWhile_cons_of_pos hplain, List.dropWhile_cons_of_pos hplain]
    rwa [List.append_assoc, List.singleton_append] at ih
  | case4 styletext styleStrPtr c buffer hplain =>
    rw [List.cons_append, List.takeWhile_cons_of_neg hplain, List.dropWhile_cons_of_neg hplain, List.append_nil]
    exact ⟨rfl, rfl⟩

theorem scanToken_eq (styleStrPtr buffer : Bytes) :
    ((scanToken styleStrPtr buffer).1, (scanToken styleStrPtr buffer).2.ahead) =
      firstToken (buffer ++ styleStrPtr) := by
  fun_induction scanToken styleStrPtr buffer with
  | case1 => rfl
  | case2 styleStrPtr hne ih => rwa [List.take_append_drop] at ih
  | case3 styleStrPtr c buffer hmark =>
    rw [firstToken, List.cons_append, List.dropWhile_cons_of_neg (not_isWhitespace hmark)]
    simp only [if_pos hmark]
    rfl
  | case4 styleStrPtr c buffer hmark hwhite ih =>
    rw [ih, firstToken, firstToken, List.cons_append, List.dropWhile_cons_of_pos hwhite]
  | case5 styleStrPtr c buffer hmark hwhite =>
    obtain ⟨hstring, hrest⟩ := scanString_eq [c] styleStrPtr buffer
    rw [firstToken, List.cons_append, List.dropWhile_cons_of_neg hwhite]
    simp only [if_neg hmark, Prod.map_fst, Prod.map_snd, id, hstring, hrest]
    rfl

theorem firstToken_white {w : Bytes} (hw : ∀ c ∈ w, isWhitespace c = true) (text : Bytes) :
    firstToken (w ++ text) = firstToken text := by
  rw [firstToken, firstToken, List.dropWhile_append_of_pos hw]

theorem firstToken_char {c : UInt8} (h : c = colon ∨ c = semicolon) (text : Bytes) :
    firstToken (c :: text) = (.char c, text) := by
  rw [firstToken, List.dropWhile_cons_of_neg (not_isWhitespace h)]
  simp only [if_pos h]

theorem firstToken_string {v text : Bytes} (hne : v ≠ []) (hv : ∀ c ∈ v, isPlain c = true)
    (htext : ∀ c ∈ text.head?, isPlain c = false) : firstToken (v ++ text) = (.string v, text) := by
  obtain ⟨c, v', rfl⟩ := List.exists_cons_of_ne_nil hne
  have hc := hv c List.mem_cons_self
  have hv' : ∀ d ∈ v', isPlain d = true := fun d hd => hv d (List.mem_cons_of_mem c hd)
  rw [isPlain, Bool.not_eq_true', Bool.or_eq_false_iff, Bool.or_eq_false_iff, decide_eq_false_iff_not,
    decide_eq_false_iff_not] at hc
  have htake : text.takeWhile isPlain = [] ∧ text.dropWhile isPlain = text := by
    cases text with
    | nil => exact ⟨rfl, rfl⟩
    | cons d text =>
      have hd : ¬ isPlain d = true := by simp [htext d rfl]
      exact ⟨List.takeWhile_cons_of_neg hd, List.dropWhile_cons_of_neg hd⟩
  rw [firstToken, List.cons_append, List.dropWhile_cons_of_neg (by simp [hc.1.1])]
  simp only [if_neg (not_or.mpr ⟨hc.1.2, hc.2⟩)]
  rw [List.takeWhile_append_of_pos hv', List.dropWhile_append_of_pos hv', htake.1, htake.2, List.append_nil]

theorem firstToken_plain {v : Bytes} (hne : v ≠ []) (hv : ∀ c ∈ v, isPlain c = true) :
    firstToken v = (.string v, []) := by
  have hend : ∀ c ∈ ([] : Bytes).head?, isPlain c = false := by simp
  have h := firstToken_string hne hv hend
  rwa [List.append_nil] at h

/-! ### What is left of a text -/

/-- The bytes that a scanner has not scanned. -/
def Scanner.left (s : Scanner) : ℕ :=
  match s.buffer with
  | .normal unscanned => unscanned.length + s.styleStrPtr.length
  | .eofPending => s.styleStrPtr.length

/-! ### The blocks of a text -/

/-- The end of the block in which the `n`-th byte stands. -/
def blockEnd (n : ℕ) : ℕ := (n + (YY_READ_BUF_SIZE - 1)) / YY_READ_BUF_SIZE * YY_READ_BUF_SIZE

/-- A scanner in a text of `len` bytes, of which it has taken no block before it has been at the end of the one in
front; `d` bytes at least have been scanned of the last one. -/
def Reading (len d : ℕ) (s : Scanner) : Prop :=
  match s.buffer with
  | .normal unscanned => unscanned.length + s.styleStrPtr.length ≤ len ∧
    ∃ k, s.styleStrPtr.length = len - YY_READ_BUF_SIZE * k ∧
      YY_READ_BUF_SIZE * k + (unscanned.length + s.styleStrPtr.length) + d ≤ len + YY_READ_BUF_SIZE
  | .eofPending => s.styleStrPtr = []

theorem reading_text (text : Bytes) : Reading text.length 0 ⟨text, .normal []⟩ :=
  ⟨le_of_eq (Nat.zero_add _), 0, rfl, by simp⟩

theorem Reading.block {len : ℕ} {styleStrPtr : Bytes} (h : Reading len 0 ⟨styleStrPtr, .normal []⟩)
    (hne : styleStrPtr ≠ []) :
    Reading len 0 ⟨styleStrPtr.drop YY_READ_BUF_SIZE, .normal (styleStrPtr.take YY_READ_BUF_SIZE)⟩ := by
  obtain ⟨hle, k, hk, hscanned⟩ := h
  have hpos : 0 < styleStrPtr.length := List.length_pos_iff.mpr hne
  have hall : (styleStrPtr.take YY_READ_BUF_SIZE).length + (styleStrPtr.drop YY_READ_BUF_SIZE).length =
      styleStrPtr.length := by rw [← List.length_append, List.take_append_drop]
  refine ⟨?_, k + 1, ?_, ?_⟩
  all_goals
    simp only [List.length_drop, List.length_nil, YY_READ_BUF_SIZE] at *
    omega

theorem Reading.byte {len : ℕ} {styleStrPtr buffer : Bytes} {c : UInt8}
    (h : Reading len 0 ⟨styleStrPtr, .normal (c :: buffer)⟩) : Reading len 1 ⟨styleStrPtr, .normal buffer⟩ := by
  obtain ⟨hle, k, hk, hscanned⟩ := h
  simp only [List.length_cons] at hle hscanned
  exact ⟨by dsimp only; omega, k, hk, by dsimp only; omega⟩

theorem Reading.mono {len d : ℕ} {s : Scanner} (h : Reading len d s) : Reading len 0 s := by
  rcases s with ⟨styleStrPtr, unscanned | _⟩
  · obtain ⟨hle, k, hk, hscanned⟩ := h
    exact ⟨hle, k, hk, by dsimp only at *; omega⟩
  · exact h

theorem scanString_reading {len : ℕ} (styletext styleStrPtr buffer : Bytes)
    (h : Reading len 0 ⟨styleStrPtr, .normal buffer⟩) : Reading len 0 (scanString styletext styleStrPtr buffer).2 := by
  fun_induction scanString styletext styleStrPtr buffer with
  | case1 styletext => exact rfl
  | case2 styletext styleStrPtr hne ih => exact ih (h.block hne)
  | case3 styletext styleStrPtr c buffer hplain ih => exact ih h.byte.mono
  | case4 styletext styleStrPtr c buffer hplain => exact h

/-- The scanner at the end of a text. -/
def Scanner.idle : Scanner := ⟨[], .normal []⟩

/-- A scanner that has come to a token. -/
def After (len : ℕ) (s : Scanner) : Token → Prop
  | .eof => s = .idle
  | .char _ => Reading len 1 s ∧ s.buffer ≠ .eofPending
  | .string _ => Reading len 0 s

theorem scanToken_after {len : ℕ} (styleStrPtr buffer : Bytes) (h : Reading len 0 ⟨styleStrPtr, .normal buffer⟩) :
    After len (scanToken styleStrPtr buffer).2 (scanToken styleStrPtr buffer).1 := by
  fun_induction scanToken styleStrPtr buffer with
  | case1 => exact rfl
  | case2 styleStrPtr hne ih => exact ih (h.block hne)
  | case3 styleStrPtr c buffer hmark => exact ⟨h.byte, by simp⟩
  | case4 styleStrPtr c buffer hmark hwhite ih => exact ih h.byte.mono
  | case5 styleStrPtr c buffer hmark hwhite => exact scanString_reading [c] styleStrPtr buffer h.byte.mono

theorem nextToken_reading {len : ℕ} {s : Scanner} {token : Token} {text : Bytes} (h : Reading len 0 s)
    (hfirst : firstToken s.ahead = (token, text)) :
    ∃ s', nextToken s = (token, s') ∧ s'.ahead = text ∧ After len s' token := by
  rcases s with ⟨styleStrPtr, unscanned | _⟩
  · have heq := (scanToken_eq styleStrPtr unscanned).trans hfirst
    obtain ⟨rfl, rfl⟩ := Prod.mk.inj heq
    exact ⟨_, rfl, rfl, scanToken_after styleStrPtr unscanned h⟩
  · obtain rfl : styleStrPtr = [] := h
    obtain ⟨rfl, rfl⟩ := Prod.mk.inj hfirst
    exact ⟨_, rfl, rfl, rfl⟩

/-- Behind a colon or a semicolon the whole text has been taken if its end is in the same block. -/
theorem Reading.styleStrPtr_eq_nil_iff {len : ℕ} {s : Scanner} (h : Reading len 1 s) (hs : s.buffer ≠ .eofPending) :
    s.styleStrPtr = [] ↔ len ≤ blockEnd (len - s.ahead.length) := by
  rcases s with ⟨styleStrPtr, unscanned | _⟩
  · obtain ⟨hle, k, hk, hscanned⟩ := h
    simp only [YY_READ_BUF_SIZE] at hle hk hscanned
    have hblock : (len - (unscanned.length + styleStrPtr.length) + (8192 - 1)) / 8192 = k := by omega
    rw [Scanner.ahead, List.length_append, blockEnd, YY_READ_BUF_SIZE, hblock, ← List.length_eq_zero_iff, hk]
    omega
  · exact absurd rfl hs

end GnuPoc.Svg.Style
