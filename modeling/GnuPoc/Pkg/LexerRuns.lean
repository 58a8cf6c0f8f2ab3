import GnuPoc.Pkg.Literal

/-!
# GnuPoc.Pkg.LexerRuns — what the functions of the lexical analyzer do to its state

One lemma for each way a function can end.  No function moves the file pointer back behind where it began
(`Onward`).
-/

namespace GnuPoc.Pkg

open GnuPoc.Lib

/-! ### Positions -/

/-- The first character of a text; 0 at its end. -/
def firstChar (text : List UInt16) : UInt32 := (text.headD 0).toUInt32

@[simp] theorem firstChar_nil : firstChar [] = 0 := rfl

@[simp] theorem firstChar_cons (c : UInt16) (text : List UInt16) : firstChar (c :: text) = c.toUInt32 := rfl

/-- The first character of the text is the current one, and the file pointer stands behind it. -/
structure Lexer.At (s : Lexer) (text : List UInt16) : Prop where
  pkgChar : s.m_pkgChar = firstChar text
  file : s.m_file = text.tail

/-- The same memory at another text. -/
def Lexer.moved (s : Lexer) (text : List UInt16) : Lexer :=
  { s with m_pkgChar := firstChar text, m_file := text.tail }

variable {str : WStr} (s : Lexer) {memory : List UInt32} (text : List UInt16) (t : StringState)

theorem Lexer.at_moved : (s.moved text).At text := ⟨rfl, rfl⟩

@[simp] theorem Lexer.moved_m_tokenValue : (s.moved text).m_tokenValue = s.m_tokenValue := rfl

@[simp] theorem Lexer.moved_erange : (s.moved text).erange = s.erange := rfl

@[simp] theorem Lexer.moved_m_pkgChar : (s.moved text).m_pkgChar = firstChar text := rfl

@[simp] theorem Lexer.moved_m_file : (s.moved text).m_file = text.tail := rfl

/-- The state `GetNextChar` leaves. -/
def Lexer.next (s : Lexer) : Lexer := s.moved s.m_file

theorem getNextChar_eq : GetNextChar s = (.ok (), s.next) := by
  rw [GetNextChar, Lexer.next, Lexer.moved]
  rcases hfile : s.m_file with - | ⟨tmp, rest⟩
  · simp
  · rfl

theorem Lexer.at_next : s.next.At s.m_file := ⟨rfl, rfl⟩

@[simp] theorem Lexer.next_m_tokenValue : s.next.m_tokenValue = s.m_tokenValue := rfl

@[simp] theorem Lexer.next_erange : s.next.erange = s.erange := rfl

@[simp] theorem Lexer.next_m_file : s.next.m_file = s.m_file.tail := rfl

theorem onChar_pos {α : Type} {c : UInt32} {s : Lexer} (h : s.m_pkgChar = c) (m m' : Lex α) :
    onChar c m m' s = m s := if_pos h

theorem onChar_neg {α : Type} {c : UInt32} {s : Lexer} (h : s.m_pkgChar ≠ c) (m m' : Lex α) :
    onChar c m m' s = m' s := if_neg h

variable {chars rest : List UInt16}

/-- The characters that satisfy `p` are passed, up to the first one that does not. -/
theorem passWhile_eq {p : UInt32 → Bool} (hchars : ∀ c ∈ chars, p c.toUInt32 = true)
    (hrest : p (firstChar rest) = false) :
    passWhile p (firstChar (chars ++ rest)) (chars ++ rest).tail =
      (chars.map UInt16.toUInt32, firstChar rest, rest.tail) := by
  induction chars with
  | nil =>
    rcases rest with - | ⟨c, - | ⟨d, rest⟩⟩
    · simp only [firstChar_nil] at hrest
      simp [passWhile, hrest]
    · simp only [firstChar_cons] at hrest
      simp [passWhile, hrest]
    · simp only [firstChar_cons] at hrest
      simp [passWhile, hrest]
  | cons c chars ih =>
    have hc := hchars c List.mem_cons_self
    have htail := ih fun d hd => hchars d (List.mem_cons_of_mem _ hd)
    rcases htext : chars ++ rest with - | ⟨d, text⟩
    · obtain ⟨rfl, rfl⟩ := List.append_eq_nil_iff.mp htext
      simp [passWhile, hc]
    · rw [htext, firstChar_cons, List.tail_cons] at htail
      simp [htext, passWhile, hc, htail]

theorem getWhile_eq {p : UInt32 → Bool} {s : Lexer} (hs : s.At (chars ++ rest))
    (hchars : ∀ c ∈ chars, p c.toUInt32 = true) (hrest : p (firstChar rest) = false) :
    GetWhile p s = (.ok (chars.map UInt16.toUInt32), s.moved rest) := by
  rw [GetWhile, hs.pkgChar, hs.file, passWhile_eq hchars hrest]
  rfl

/-! ### Memory -/

/-- The memory begins with `str`. -/
def Begins (str : WStr) (memory : List UInt32) : Prop :=
  memory.length = MAX_STRING ∧ ∃ rest, memory = str ++ rest

/-- The memory holds the string `str`. -/
def HoldsString (str : WStr) (memory : List UInt32) : Prop :=
  memory.length = MAX_STRING ∧ (∀ c ∈ str, c ≠ 0) ∧ ∃ rest, memory = str ++ 0 :: rest

theorem HoldsString.begins (h : HoldsString str memory) : Begins str memory := by
  obtain ⟨hlen, -, rest, rfl⟩ := h
  exact ⟨hlen, _, rfl⟩

theorem HoldsString.cstring (h : HoldsString str memory) : cstring memory = str := by
  obtain ⟨-, hne, rest, rfl⟩ := h
  rw [Pkg.cstring, List.takeWhile_append_of_pos (by simpa using hne)]
  simp

theorem HoldsString.length (h : HoldsString str memory) : str.length + 1 ≤ MAX_STRING := by
  obtain ⟨hlen, -, rest, rfl⟩ := h
  rw [← hlen]
  simp

theorem cstring_eq_iff {front rest : List UInt32} {str : WStr} (hlen : front.length = str.length)
    (hne : ∀ c ∈ str, c ≠ 0) : cstring (front ++ 0 :: rest) = str ↔ front = str := by
  constructor
  · intro h
    have hfront : ∀ c ∈ front, c ≠ 0 := by
      by_contra hzero
      push Not at hzero
      obtain ⟨c, hc, rfl⟩ := hzero
      obtain ⟨before, after, rfl⟩ := List.append_of_mem hc
      have hle : (cstring (before ++ 0 :: after ++ 0 :: rest)).length ≤ before.length := by
        rw [cstring, List.append_assoc, List.takeWhile_append]
        split
        · simp
        · exact (List.takeWhile_sublist _).length_le
      rw [h, ← hlen] at hle
      simp at hle
    rw [← h, cstring, List.takeWhile_append_of_pos (by simpa using hfront)]
    simp
  · rintro rfl
    rw [cstring, List.takeWhile_append_of_pos (by simpa using hne)]
    simp

/-- `pszString[wCount] = L'\0'` -/
theorem Begins.terminate (h : Begins str memory) (hne : ∀ c ∈ str, c ≠ 0)
    (hlen : str.length + 1 ≤ MAX_STRING) : HoldsString str (memory.set str.length 0) := by
  obtain ⟨hmem, rest, rfl⟩ := h
  rcases rest with - | ⟨r, rest⟩
  · simp at hmem
    omega
  · refine ⟨by simpa using hmem, hne, rest, by simp⟩

theorem storeChars_begins (chars : WStr) {str : WStr} {memory : List UInt32} (h : Begins str memory)
    (hlen : str.length + chars.length + 1 ≤ MAX_STRING) :
    (storeChars chars str.length memory).1 = str.length + chars.length ∧
      Begins (str ++ chars) (storeChars chars str.length memory).2 := by
  induction chars generalizing str memory with
  | nil => exact ⟨rfl, by simpa [storeChars] using h⟩
  | cons c chars ih =>
    rw [List.length_cons] at hlen
    obtain ⟨hmem, rest, rfl⟩ := h
    rcases rest with - | ⟨r, rest⟩
    · simp at hmem
      omega
    · have hset : (str ++ r :: rest).set str.length c = (str ++ [c]) ++ rest := by simp
      have hbegins : Begins (str ++ [c]) ((str ++ [c]) ++ rest) := ⟨by simpa using hmem, rest, rfl⟩
      have hstep := ih hbegins (by simp; omega)
      rw [storeChars, if_pos (by simp [MAX_STRING] at hlen ⊢; omega), hset]
      simp only [List.length_append, List.length_cons, List.length_nil, Nat.zero_add, List.append_assoc,
        List.cons_append, List.nil_append] at hstep ⊢
      refine ⟨?_, hstep.2⟩
      rw [hstep.1]
      omega

theorem storeChars_fst (chars : WStr) (wCount : ℕ) (memory memory' : List UInt32) :
    (storeChars chars wCount memory).1 = (storeChars chars wCount memory').1 := by
  induction chars generalizing wCount memory memory' with
  | nil => rfl
  | cons c chars ih =>
    rw [storeChars, storeChars]
    split
    · exact ih _ _ _
    · exact ih _ _ _

theorem wcscpy_holds (hmem : memory.length = MAX_STRING)
    (hne : ∀ c ∈ str, c ≠ 0) (hlen : str.length + 1 ≤ MAX_STRING) : HoldsString str (wcscpy memory str) := by
  refine ⟨?_, hne, _, rfl⟩
  simp [wcscpy]
  omega

theorem appendChar_holds {num : UInt64} (hmem : memory.length = MAX_STRING)
    (hne : ∀ c ∈ str, c ≠ 0) (hnum : num.toUInt32 ≠ 0) (hlen : str.length + 2 ≤ MAX_STRING) :
    HoldsString (str ++ [num.toUInt32]) (appendChar str num memory) := by
  have hcopy := wcscpy_holds hmem hne (by omega)
  rw [wcscpy] at hcopy
  rw [appendChar, if_pos hlen, wcscpy]
  rcases hdrop : memory.drop (str.length + 1) with - | ⟨r, rest⟩
  · have := congrArg List.length hdrop
    simp at this
    omega
  · rw [hdrop] at hcopy
    have hset : (((str ++ 0 :: r :: rest).set str.length num.toUInt32).set (str.length + 1) 0) =
        (str ++ [num.toUInt32]) ++ 0 :: rest := by simp
    rw [hset]
    refine ⟨by simpa using hcopy.1, ?_, rest, rfl⟩
    intro c hc
    rcases List.mem_append.mp hc with hc | hc
    · exact hne c hc
    · rwa [List.mem_singleton.mp hc]

@[simp] theorem storeNumber_length {n : UInt64} {memory : List UInt32} (h : memory.length = MAX_STRING) :
    (storeNumber n memory).length = MAX_STRING := by
  simp [storeNumber, MAX_STRING] at h ⊢
  omega

@[simp] theorem dwNumber_storeNumber (n : UInt64) (memory : List UInt32) : dwNumber (storeNumber n memory) = n := by
  have hn := n.toNat_lt
  simp only [dwNumber, storeNumber, List.getD_cons_zero, List.getD_cons_succ, ← UInt64.toNat_inj,
    UInt64.toNat_ofNat', UInt64.toNat_toUInt32, UInt64.toNat_shiftRight, Nat.shiftRight_eq_div_pow]
  simp
  omega

/-! ### Numbers -/

/-- The characters behind the first one of a number. -/
def numberTail (file : List UInt16) : List UInt16 := file.takeWhile isNumberChar

/-- What follows a number. -/
def numberRest (file : List UInt16) : List UInt16 := file.dropWhile isNumberChar

/-- `temp` at a text. -/
def numberTemp (text : List UInt16) : WStr := firstChar text :: (numberTail text.tail).map UInt16.toUInt32

theorem numberTail_append (hchars : ∀ c ∈ chars, isNumberChar c = true)
    (hrest : isNumberChar (rest.headD 0) = false) : numberTail (chars ++ rest) = chars := by
  rw [numberTail, List.takeWhile_append_of_pos hchars]
  rcases rest with - | ⟨c, rest⟩
  · simp
  · simp only [List.headD_cons] at hrest
    simp [hrest]

theorem numberRest_append (hchars : ∀ c ∈ chars, isNumberChar c = true)
    (hrest : isNumberChar (rest.headD 0) = false) : numberRest (chars ++ rest) = rest := by
  rw [numberRest, List.dropWhile_append_of_pos hchars]
  rcases rest with - | ⟨c, rest⟩
  · simp
  · simp only [List.headD_cons] at hrest
    simp [hrest]

theorem length_numberRest_le (file : List UInt16) : (numberRest file).length ≤ file.length :=
  (List.dropWhile_sublist _).length_le

/-- The state behind the loop over a number. -/
def Lexer.passed (s : Lexer) : Lexer := { s with m_file := numberRest s.m_file }

theorem readTemp_eq : readTemp s =
    if MAX_STRING ≤ (numberTail s.m_file).length then (.error .outOfBounds, s.passed)
    else if numberRest s.m_file = [] then (.error (.throws .ErrReadFailed), s.passed)
    else if MAX_STRING ≤ (numberTail s.m_file).length + 1 then (.error .outOfBounds, s.passed)
    else (.ok (s.m_pkgChar :: (numberTail s.m_file).map UInt16.toUInt32), s.passed) := rfl

/-- The state behind `wcstoul`. -/
def Lexer.stored (temp : WStr) (s : Lexer) : Lexer := { s with
  m_tokenValue := storeNumber (convertTemp temp).value s.m_tokenValue
  erange := s.erange || (convertTemp temp).erange }

theorem storeTemp_eq (temp : WStr) (s : Lexer) : storeTemp temp s =
    if (convertTemp temp).converted = false then (.error (.throws .ErrReadFailed), s.stored temp)
    else if (s.stored temp).erange then (.error (.throws .ErrNumberOutOfRange), s.stored temp)
    else (.ok (), (s.stored temp).next) := by
  have hread : storeTemp temp s = (if !(convertTemp temp).converted then Run.stop (.throws .ErrReadFailed)
      else if (s.stored temp).erange then Run.stop (.throws .ErrNumberOutOfRange)
      else GetNextChar : Lex Unit) (s.stored temp) := rfl
  rw [hread]
  rcases (convertTemp temp).converted with - | -
  · rfl
  · rcases (s.stored temp).erange with - | -
    · simpa using getNextChar_eq _
    · rfl

/-- `GetNumericToken` reads a number that is followed by something else. -/
theorem getNumericToken_ok {s : Lexer} (hlen : (numberTail s.m_file).length + 1 < MAX_STRING)
    (hrest : numberRest s.m_file ≠ []) :
    GetNumericToken s = storeTemp (s.m_pkgChar :: (numberTail s.m_file).map UInt16.toUInt32) s.passed := by
  have hread : readTemp s = (.ok (s.m_pkgChar :: (numberTail s.m_file).map UInt16.toUInt32), s.passed) := by
    rw [readTemp_eq, if_neg (by omega), if_neg hrest, if_neg (by omega)]
  rw [GetNumericToken, Run.bind_ok hread]

/-! ### Turns of `ParseEscapeChars` -/

theorem storeEscape_eq (temp : WStr) (s : Lexer) : storeEscape temp s =
    if 0x80 ≤ dwNumber s.m_tokenValue && dwNumber s.m_tokenValue ≤ 0x9F then
      (.error (.throws .ErrInvalidEscape), s)
    else (.ok true,
      { s with m_tokenValue := appendChar temp (dwNumber s.m_tokenValue) s.m_tokenValue }.next) := by
  rw [storeEscape, Run.bind_ok (Run.read_apply _ s)]
  split
  · rfl
  · rw [Run.bind_ok (Run.update_apply _ s), Run.bind_ok (getNextChar_eq _)]
    rfl

theorem escapeTurn_ok {s s' : Lexer} (h : (GetNextChar >>= fun _ => GetNumericToken) s = (.ok (), s')) :
    escapeTurn s = if s'.m_pkgChar = 62 then storeEscape (cstring s.m_tokenValue) s'
      else (.ok false, { s' with m_file := s.m_file }) := by
  rw [escapeTurn, h]

theorem escapeTurn_throws {s s' : Lexer} {e : LexException}
    (h : (GetNextChar >>= fun _ => GetNumericToken) s = (.error (.throws e), s')) :
    escapeTurn s = (.ok false, { s' with
      m_tokenValue := wcscpy s'.m_tokenValue (cstring s.m_tokenValue), m_file := s.m_file }) := by
  rw [escapeTurn, h]

theorem escapeTurn_outOfBounds {s s' : Lexer}
    (h : (GetNextChar >>= fun _ => GetNumericToken) s = (.error .outOfBounds, s')) :
    escapeTurn s = (.error .outOfBounds, s') := by
  rw [escapeTurn, h]

/-! ### The file pointer -/

/-- The file pointer is not moved back. -/
def Onward (s s' : Lexer) : Prop := s'.m_file.length ≤ s.m_file.length

theorem onward_refl : Onward s s := le_refl _

theorem onward_trans (a b c : Lexer) (h : Onward a b) (h' : Onward b c) : Onward a c := le_trans h' h

theorem onward_getNextChar : Run.Keeps Onward GetNextChar := by
  intro s
  rw [getNextChar_eq]
  simp [Onward]

theorem length_passWhile_le (p : UInt32 → Bool) (c : UInt32) (file : List UInt16) :
    (passWhile p c file).2.2.length ≤ file.length := by
  induction file generalizing c with
  | nil =>
    rw [passWhile]
    split <;> simp
  | cons tmp rest ih =>
    rw [passWhile]
    split
    · have := ih tmp.toUInt32
      simp
      omega
    · simp

theorem onward_getWhile (p : UInt32 → Bool) : Run.Keeps Onward (GetWhile p) := by
  intro s
  exact length_passWhile_le p _ _

theorem onward_storeTemp (temp : WStr) : Run.Keeps Onward (storeTemp temp) := by
  intro s
  rw [storeTemp_eq]
  split
  · exact le_refl _
  · split
    · exact le_refl _
    · simp [Onward, Lexer.stored]

theorem onward_readTemp : Run.Keeps Onward readTemp := by
  intro s
  have hpassed : Onward s s.passed := length_numberRest_le _
  rw [readTemp_eq]
  split
  · exact hpassed
  · split
    · exact hpassed
    · split
      · exact hpassed
      · exact hpassed

theorem onward_getNumericToken : Run.Keeps Onward GetNumericToken :=
  .bind onward_trans onward_readTemp onward_storeTemp

theorem onward_storeEscape (temp : WStr) : Run.Keeps Onward (storeEscape temp) := by
  refine .bind onward_trans (.read onward_refl _) fun num => ?_
  refine .ite (fun _ => .stop onward_refl _) fun _ => ?_
  refine .bind onward_trans (.update fun s => le_refl _) fun _ => ?_
  exact .bind onward_trans onward_getNextChar fun _ => .pure onward_refl _

theorem onward_escapeTurn : Run.Keeps Onward escapeTurn := by
  intro s
  have hread : Run.Keeps Onward (GetNextChar >>= fun _ => GetNumericToken) :=
    .bind onward_trans onward_getNextChar fun _ => onward_getNumericToken
  have hs := hread s
  rw [escapeTurn]
  rcases hrun : (GetNextChar >>= fun _ => GetNumericToken) s with ⟨(e | _ | _) | u, s'⟩
  · exact le_refl _
  · rwa [hrun] at hs
  · rwa [hrun] at hs
  · rw [hrun] at hs
    dsimp only
    split
    · exact onward_trans _ _ _ hs (onward_storeEscape _ s')
    · exact le_refl _

theorem onward_escapeLoop (n : ℕ) (found : UInt16) : Run.Keeps Onward (escapeLoop n found) := by
  induction n generalizing found with
  | zero => exact .stop onward_refl _
  | succ n ih =>
    refine .branch (.bind onward_trans onward_escapeTurn fun goesOn => ?_) (.pure onward_refl _)
    exact .ite (fun _ => ih _) fun _ => .pure onward_refl _

theorem onward_readSegment : Run.Keeps Onward (readSegment t) := by
  refine .bind onward_trans (onward_getWhile _) fun chars => ?_
  refine .bind onward_trans (.update fun s => le_refl _) fun _ => ?_
  refine .bind onward_trans (.read onward_refl _) fun c => ?_
  refine .ite (fun _ => .stop onward_refl _) fun _ => ?_
  exact .bind onward_trans onward_getNextChar fun _ => .pure onward_refl _

theorem onward_readQuoted : Run.Keeps Onward (readQuoted t) :=
  .bind onward_trans onward_getNextChar fun _ => onward_readSegment t

theorem readQuoted_shorter {t t' : StringState} {s s' : Lexer} (h : readQuoted t s = (.ok t', s')) :
    s'.m_file.length < s.m_file.length := by
  rw [readQuoted, Run.bind_ok (getNextChar_eq s)] at h
  rcases hfile : s.m_file with - | ⟨c, rest⟩
  · have hnext : s.next.At ([] ++ []) := by
      have := s.at_next
      rwa [hfile] at this
    have hwhile := getWhile_eq (p := fun c => c != 0 && c != 34) hnext (by simp) rfl
    rw [readSegment, Run.bind_ok hwhile] at h
    exact absurd (congrArg Prod.fst h) (by simp [Run.bind_apply])
  · have hrest := onward_readSegment t s.next
    rw [h, Onward, Lexer.next_m_file, hfile] at hrest
    simpa using Nat.lt_succ_of_le hrest

theorem onward_readEscapes : Run.Keeps Onward (readEscapes t) := by
  refine .bind onward_trans (.update fun s => le_refl _) fun _ => ?_
  exact .bind onward_trans (fun s => onward_escapeLoop _ _ s) fun _ => .pure onward_refl _

theorem onward_stringTurn : Run.Keeps Onward (stringTurn t) := by
  refine .bind onward_trans (.branch (onward_readQuoted t) (.pure onward_refl _)) fun t' => ?_
  exact .branch (onward_readEscapes t') (.pure onward_refl _)

theorem onward_stringLoop (n : ℕ) (t : StringState) : Run.Keeps Onward (stringLoop n t) := by
  induction n generalizing t with
  | zero => exact .stop onward_refl _
  | succ n ih =>
    refine .bind onward_trans (onward_stringTurn t) fun t' => .ite (fun _ => .pure onward_refl _) fun _ => ?_
    exact .branch (ih t') (.pure onward_refl _)

end GnuPoc.Pkg
