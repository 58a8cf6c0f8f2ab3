import GnuPoc.Svg.StyleParser

/-!
# GnuPoc.Svg.StyleDeclarations — a style and the attributes that it stands for (`encode.cpp`)

The loop of `parseStyle` writes what the declarations of the text come to as attributes, up to the first one with a name
or a value that the arrays do not hold.
-/

namespace GnuPoc.Svg.Style

open GnuPoc.Lib
open GnuPoc.Svg.Encode (WriteFunc findAttribute findElementId)

/-! ### Declarations -/

structure Declaration where
  name : Bytes
  value : Bytes
  name_ne : name ≠ []
  name_plain : ∀ c ∈ name, isPlain c = true
  value_plain : ∀ c ∈ value, isPlain c = true

/-- White space. -/
abbrev White := { w : Bytes // ∀ c ∈ w, isWhitespace c = true }

/-- A declaration with the white space around its parts. -/
structure Placed extends Declaration where
  beforeName : White
  afterName : White
  beforeValue : White
  afterValue : White

/-- The text of a declaration from behind its colon on. -/
def Placed.valueText (p : Placed) : Bytes := p.beforeValue.val ++ (p.value ++ p.afterValue.val)

def Placed.text (p : Placed) : Bytes := p.beforeName.val ++ (p.name ++ (p.afterName.val ++ colon :: p.valueText))

/-- The text of a style: the declarations with semicolons between them, and perhaps a last semicolon with white space
behind it. -/
def styleText : List Placed → Option White → Bytes
  | [], ending => (ending.map Subtype.val).getD []
  | p :: ps, ending => p.text ++ if ps.isEmpty && ending.isNone then [] else semicolon :: styleText ps ending

/-- What `styleAttribute` and `styleValue` hold. -/
def Declaration.Short (d : Declaration) : Prop := d.name.length < tokenSize ∧ d.value.length < tokenSize

instance (d : Declaration) : Decidable d.Short := inferInstanceAs (Decidable (_ ∧ _))

section

variable (write : WriteFunc → Bytes → Call Unit) (element : Bytes)

/-- What a declaration comes to as an attribute of its own. -/
def asAttribute (d : Declaration) : Call Unit :=
  if chars d.name = "style" then
    if d.value = [] then return ()
    else if d.value.length < tokenSize then .stop (.throws .ErrBadStyleAttribute) else .stop .undefined
  else match findAttribute (chars d.name) (chars element) with
    | some entry => do
      .emit (writeUint16 entry.id)
      write entry.func d.value
    | none => return ()

/-- Declarations one behind the other, as attributes. -/
def separate : List Declaration → Call Unit
  | [] => return ()
  | d :: ds => do
    asAttribute write element d
    separate ds

/-- And in a style. -/
def declared : List Declaration → Call Unit
  | [] => return ()
  | d :: ds =>
    if d.Short then do
      asAttribute write element d
      declared ds
    else .stop .undefined

end

/-! ### The tokens of a declaration -/

theorem not_isPlain_of_white {c : UInt8} (h : isWhitespace c = true) : isPlain c = false := by
  rw [isPlain, h]
  rfl

theorem head?_white_append {w text : Bytes} (hw : ∀ c ∈ w, isWhitespace c = true)
    (htext : ∀ c ∈ text.head?, isPlain c = false) : ∀ c ∈ (w ++ text).head?, isPlain c = false := by
  cases w with
  | nil => exact htext
  | cons a w =>
    intro c hc
    obtain rfl : a = c := Option.some.inj hc
    exact not_isPlain_of_white (hw a List.mem_cons_self)

theorem firstToken_placed {p : Placed} {s : Scanner} {text : Bytes} (h : s.ahead = p.text ++ text) :
    firstToken s.ahead = (.string p.name, p.afterName.val ++ colon :: (p.valueText ++ text)) := by
  rw [h, Placed.text, List.append_assoc, List.append_assoc, List.append_assoc, List.cons_append,
    firstToken_white p.beforeName.2]
  refine firstToken_string p.name_ne p.name_plain (head?_white_append p.afterName.2 fun c hc => ?_)
  obtain rfl : colon = c := Option.some.inj hc
  decide

theorem stylelex_eq {s s' : Scanner} {token : Token} (hnext : nextToken s = (token, s'))
    (hshort : ∀ v, token = .string v → v.length < tokenSize) : stylelex s = pure (token, s') := by
  rw [stylelex, hnext]
  cases token with
  | eof => rfl
  | char c => rfl
  | string v => exact if_pos (hshort v rfl)

theorem stylelex_reading {len : ℕ} {s : Scanner} {token : Token} {text : Bytes} (h : Reading len 0 s)
    (hfirst : firstToken s.ahead = (token, text)) (hshort : ∀ v, token = .string v → v.length < tokenSize) :
    ∃ s', stylelex s = pure (token, s') ∧ s'.ahead = text ∧ After len s' token := by
  obtain ⟨s', hnext, hafter⟩ := nextToken_reading h hfirst
  exact ⟨s', stylelex_eq hnext hshort, hafter⟩

theorem stylelex_long {len : ℕ} {s : Scanner} {v text : Bytes} (h : Reading len 0 s)
    (hfirst : firstToken s.ahead = (.string v, text)) (hv : ¬ v.length < tokenSize) :
    stylelex s = .stop .undefined := by
  obtain ⟨s', hnext, -, -⟩ := nextToken_reading h hfirst
  rw [stylelex, hnext]
  exact if_neg hv

theorem stylelex_normal {styleStrPtr u text : Bytes} {token : Token}
    (hfirst : firstToken (u ++ styleStrPtr) = (token, text))
    (hshort : ∀ v, token = .string v → v.length < tokenSize) :
    ∃ s', stylelex ⟨styleStrPtr, .normal u⟩ = pure (token, s') ∧ s'.ahead = text := by
  have heq := (scanToken_eq styleStrPtr u).trans hfirst
  obtain ⟨rfl, rfl⟩ := Prod.mk.inj heq
  exact ⟨_, stylelex_eq rfl hshort, rfl⟩

theorem stylelex_ahead_nil {s : Scanner} (h : s.ahead = []) : ∃ s', stylelex s = pure (.eof, s') := by
  rcases s with ⟨styleStrPtr, unscanned | _⟩
  · have hahead : unscanned ++ styleStrPtr = [] := h
    have hfirst : firstToken (unscanned ++ styleStrPtr) = (.eof, []) := by
      rw [hahead]
      rfl
    obtain ⟨s', hlex, -⟩ := stylelex_normal hfirst fun v hv => by simp at hv
    exact ⟨s', hlex⟩
  · exact ⟨⟨styleStrPtr, .normal []⟩, rfl⟩

theorem stylelex_idle : stylelex .idle = pure (.eof, .idle) := by
  refine stylelex_eq ?_ fun v hv => by simp at hv
  rw [nextToken, Scanner.idle]
  dsimp only
  rw [scanToken, if_pos rfl]

/-! ### A style in a style -/

section

variable {write : WriteFunc → Bytes → Call Unit} {element : Bytes}

theorem styleLoop_eof {s s' : Scanner} (hlex : stylelex s = pure (.eof, s')) (fuel : ℕ) :
    styleLoop write element (fuel + 1) s = pure s' := by
  rw [styleLoop, hlex, pure_bind]

theorem styleLoop_char {s s' : Scanner} {c : UInt8} (hlex : stylelex s = pure (.char c, s')) (fuel : ℕ) :
    styleLoop write element (fuel + 1) s = .stop (.throws .ErrBadStyleAttribute) := by
  rw [styleLoop, hlex, pure_bind]

theorem styleLoop_name {s s' : Scanner} {v : Bytes} (hlex : stylelex s = pure (.string v, s')) (hs' : s'.ahead = [])
    (fuel : ℕ) : styleLoop write element (fuel + 1) s = .stop (.throws .ErrBadStyleAttribute) := by
  obtain ⟨s'', hend⟩ := stylelex_ahead_nil hs'
  rw [styleLoop, hlex, pure_bind]
  dsimp only
  rw [hend, pure_bind]
  rfl

theorem styleLoop_value {styleStrPtr unscanned w text v : Bytes} (hw : ∀ c ∈ w, isWhitespace c = true)
    (htext : ∀ c ∈ text.head?, c = semicolon) (hahead : unscanned ++ styleStrPtr = w ++ text) (hne : v ≠ [])
    (hplain : ∀ c ∈ v, isPlain c = true) (hshort : v.length < tokenSize) (fuel : ℕ) :
    styleLoop write element (fuel + 1) ⟨v, .normal unscanned⟩ = .stop (.throws .ErrBadStyleAttribute) := by
  have hwhite : ∀ u : Bytes, (∀ c ∈ u, isWhitespace c = true) →
      styleLoop write element (fuel + 1) ⟨v, .normal u⟩ = .stop (.throws .ErrBadStyleAttribute) := by
    intro u hu
    have hfirst : firstToken (u ++ v) = (.string v, []) := by
      rw [firstToken_white hu, firstToken_plain hne hplain]
    obtain ⟨s', hlex, hs'⟩ := stylelex_normal hfirst fun x hx => Token.string.inj hx ▸ hshort
    exact styleLoop_name hlex hs' fuel
  obtain ⟨a, rfl, -⟩ | ⟨a, rfl, ha⟩ := List.append_eq_append_iff.mp hahead
  · exact hwhite unscanned fun c hc => hw c (List.mem_append_left _ hc)
  · cases a with
    | nil => exact hwhite (w ++ []) (by simpa using hw)
    | cons c a =>
      obtain rfl : c = semicolon := htext c (by rw [ha]; rfl)
      have hfirst : firstToken (w ++ semicolon :: a ++ v) = (.char semicolon, a ++ v) := by
        rw [List.append_assoc, firstToken_white hw]
        exact firstToken_char (.inr rfl) _
      obtain ⟨s', hlex, -⟩ := stylelex_normal hfirst fun x hx => by simp at hx
      exact styleLoop_char hlex fuel

theorem asAttribute_style_nil {d : Declaration} (hstyle : chars d.name = "style") (hnil : d.value = []) :
    asAttribute write element d = pure () := by
  rw [asAttribute, if_pos hstyle, if_pos hnil]

theorem asAttribute_style {d : Declaration} (hstyle : chars d.name = "style") (hne : d.value ≠ [])
    (hshort : d.value.length < tokenSize) :
    asAttribute write element d = .stop (.throws .ErrBadStyleAttribute) := by
  rw [asAttribute, if_pos hstyle, if_neg hne, if_pos hshort]

theorem writeAttribute_eq {d : Declaration} (hstyle : chars d.name ≠ "style")
    (parse : Bytes → Scanner → Call Scanner) (s : Scanner) :
    writeAttribute write parse d.name d.value element s = do
      asAttribute write element d
      return s := by
  rw [writeAttribute, asAttribute, if_neg hstyle, if_neg hstyle]
  cases findAttribute (chars d.name) (chars element) with
  | none => rw [pure_bind]
  | some entry => rw [bind_assoc]

/-! ### A round of the loop -/

/-- Behind a declaration: nothing is written at the end, and from a semicolon on the loop writes so much. -/
structure Rest (loop : Scanner → Call Scanner) (len : ℕ) (text : Bytes) (next : Call Unit) : Prop where
  nil : text = [] → next = pure ()
  semicolon : ∀ rest, text = semicolon :: rest → ∀ s, Reading len 1 s → s.ahead = rest → loop s = do
    next
    return .idle

/-- The end of a text, or a semicolon. -/
def AtEnd (text : Bytes) : Prop := text = [] ∨ ∃ rest, text = semicolon :: rest

theorem AtEnd.head? {text : Bytes} (h : AtEnd text) : ∀ c ∈ text.head?, c = semicolon := by
  intro c hc
  obtain rfl | ⟨rest, rfl⟩ := h
  · simp at hc
  · exact (Option.some.inj hc).symm

theorem afterValue_string {loop : Scanner → Call Scanner} {len : ℕ} {text : Bytes} {next : Call Unit}
    (htext : AtEnd text) (hrest : Rest loop len text next) {w : Bytes} (hw : ∀ c ∈ w, isWhitespace c = true)
    {s : Scanner} (hreading : Reading len 0 s) (hahead : s.ahead = w ++ text) (v : Bytes) :
    afterValue loop (.string v) s = do
      next
      return .idle := by
  rw [afterValue, if_neg (by simp)]
  obtain rfl | ⟨rest, rfl⟩ := htext
  · have hfirst : firstToken s.ahead = (.eof, []) := by
      rw [hahead, firstToken_white hw]
      rfl
    obtain ⟨s', hlex, -, rfl⟩ := stylelex_reading hreading hfirst fun x hx => by simp at hx
    rw [hlex, hrest.nil rfl, pure_bind, pure_bind]
  · have hfirst : firstToken s.ahead = (.char semicolon, rest) := by
      rw [hahead, firstToken_white hw]
      exact firstToken_char (.inr rfl) rest
    obtain ⟨s', hlex, hahead', hreading', -⟩ := stylelex_reading hreading hfirst fun x hx => by simp at hx
    rw [hlex, pure_bind, ← hrest.semicolon rest rfl s' hreading' hahead']
    exact if_pos rfl

theorem afterColon_empty {loop : Scanner → Call Scanner} {len : ℕ} {text : Bytes} {next : Call Unit} {p : Placed}
    (htext : AtEnd text) (hrest : (asAttribute write element p.toDeclaration).ends = .ok () → Rest loop len text next)
    (hidle : loop .idle = pure .idle) (hnil : p.value = [])
    (hkeeps : chars p.name = "style" → ∀ s, Reading len 1 s → s.buffer ≠ .eofPending → text = semicolon :: s.ahead →
      s.styleStrPtr = []) {s : Scanner} (hreading : Reading len 0 s) (hahead : s.ahead = p.valueText ++ text) :
    afterColon write loop p.name element s = do
      asAttribute write element p.toDeclaration
      next
      return .idle := by
  have hfirst : firstToken s.ahead = firstToken text := by
    rw [hahead, Placed.valueText, hnil, List.nil_append, List.append_assoc, firstToken_white p.beforeValue.2,
      firstToken_white p.afterValue.2]
  -- the token that stands for the value, and the scanner behind it
  obtain ⟨token, s', hlex, hvalue, hnext, hinit⟩ : ∃ token s', stylelex s = pure (token, s') ∧
      styleValue token = pure [] ∧
      ((asAttribute write element p.toDeclaration).ends = .ok () → afterValue loop token s' = do
        next
        return .idle) ∧
      (chars p.name = "style" → (asAttribute write element p.toDeclaration).ends = .ok () → (do
        let s ← loop (initStyleTokenizer [] s')
        afterValue loop token s) = do
          next
          return .idle) := by
    obtain rfl | ⟨rest, rfl⟩ := htext
    · obtain ⟨s', hlex, -, rfl⟩ := stylelex_reading hreading hfirst fun x hx => by simp at hx
      have hend : afterValue loop .eof .idle = pure .idle := by
        rw [afterValue, if_neg (by simp), stylelex_idle, pure_bind]
      refine ⟨.eof, .idle, hlex, rfl, fun hok => ?_, fun _ hok => ?_⟩
      · rw [hend, (hrest hok).nil rfl, pure_bind]
      · rw [show initStyleTokenizer [] Scanner.idle = .idle from rfl, hidle, (hrest hok).nil rfl, pure_bind, pure_bind,
          hend]
    · rw [firstToken_char (.inr rfl)] at hfirst
      obtain ⟨s', hlex, hrest', hreading', hbuffer⟩ := stylelex_reading hreading hfirst fun x hx => by simp at hx
      refine ⟨.char semicolon, s', hlex, rfl, fun hok => ?_, fun hstyle hok => ?_⟩
      · rw [afterValue, if_pos rfl, (hrest hok).semicolon rest rfl s' hreading' hrest']
      · have hptr : s'.styleStrPtr = [] := hkeeps hstyle s' hreading' hbuffer (by rw [hrest'])
        have hsame : initStyleTokenizer [] s' = s' := by rw [initStyleTokenizer, ← hptr]
        rw [hsame, (hrest hok).semicolon rest rfl s' hreading' hrest', bind_assoc]
        simp only [pure_bind, afterValue, if_pos, hidle]
  rw [afterColon, hlex, pure_bind]
  dsimp only
  rw [hvalue, pure_bind]
  by_cases hstyle : chars p.name = "style"
  · have hwritten : asAttribute write element p.toDeclaration = pure () := asAttribute_style_nil hstyle hnil
    rw [writeAttribute, if_pos hstyle, hinit hstyle (by rw [hwritten]; rfl), hwritten, pure_bind]
  · rw [← hnil, writeAttribute_eq hstyle, bind_assoc]
    simp only [pure_bind]
    exact Output.bind_congr_of_ok fun _ hok => hnext hok

theorem afterColon_value {fuel len : ℕ} {text : Bytes} {next : Call Unit} {p : Placed} (htext : AtEnd text)
    (hrest : (asAttribute write element p.toDeclaration).ends = .ok () →
      Rest (styleLoop write element (fuel + 1)) len text next) (hne : p.value ≠ [])
    {s : Scanner} (hreading : Reading len 0 s) (hahead : s.ahead = p.valueText ++ text) :
    afterColon write (styleLoop write element (fuel + 1)) p.name element s =
      if p.value.length < tokenSize then do
        asAttribute write element p.toDeclaration
        next
        return .idle
      else .stop .undefined := by
  have hfirst : firstToken s.ahead = (.string p.value, p.afterValue.val ++ text) := by
    rw [hahead, Placed.valueText, List.append_assoc, List.append_assoc, firstToken_white p.beforeValue.2]
    refine firstToken_string hne p.value_plain (head?_white_append p.afterValue.2 fun c hc => ?_)
    rw [htext.head? c hc]
    decide
  by_cases hshort : p.value.length < tokenSize
  · rw [if_pos hshort]
    obtain ⟨s', hlex, hahead', hreading'⟩ := stylelex_reading hreading hfirst fun x hx => Token.string.inj hx ▸ hshort
    rw [afterColon, hlex, pure_bind]
    dsimp only
    rw [show styleValue (.string p.value) = pure p.value from rfl, pure_bind]
    by_cases hstyle : chars p.name = "style"
    · rw [writeAttribute, if_pos hstyle, asAttribute_style hstyle hne hshort, Output.stop_bind]
      rcases s' with ⟨styleStrPtr, unscanned | _⟩
      · rw [initStyleTokenizer, styleLoop_value p.afterValue.2 htext.head? hahead' hne p.value_plain hshort,
          Output.stop_bind]
      · -- the inner style is at its end at once, and its text is what the outer one finds behind the value
        have hend : styleLoop write element (fuel + 1) (initStyleTokenizer p.value ⟨styleStrPtr, .eofPending⟩) =
            pure ⟨p.value, .normal []⟩ := styleLoop_eof rfl fuel
        have hagain : firstToken p.value = (.string p.value, []) := firstToken_plain hne p.value_plain
        obtain ⟨s'', hlex', -⟩ := stylelex_normal (u := []) hagain fun x hx => Token.string.inj hx ▸ hshort
        rw [hend, pure_bind, afterValue, if_neg (by simp), hlex', pure_bind]
        exact if_neg (by simp)
    · rw [writeAttribute_eq hstyle, bind_assoc]
      simp only [pure_bind]
      exact Output.bind_congr_of_ok fun _ hok =>
        afterValue_string htext (hrest hok) p.afterValue.2 hreading' hahead' p.value
  · rw [if_neg hshort, afterColon, stylelex_long hreading hfirst hshort, Output.stop_bind]

end

/-! ### The loop -/

section

variable (write : WriteFunc → Bytes → Call Unit) (element : Bytes)

/-- Where a declaration is named `style` and has no value, the text has been taken by then: its end stands in the block
of the semicolon.  The declarations behind one that does not return do not count. -/
def Keeps (len : ℕ) : List Placed → Option White → Prop
  | [], _ => True
  | p :: ps, ending =>
    (chars p.name = "style" → p.value = [] →
      ps = [] ∧ ending = none ∨ len ≤ blockEnd (len - (styleText ps ending).length)) ∧
    ((asAttribute write element p.toDeclaration).ends = .ok () → Keeps len ps ending)

variable {write element}

theorem styleLoop_round {len : ℕ} {text : Bytes} {p : Placed} {s : Scanner} (hreading : Reading len 0 s)
    (hahead : s.ahead = p.text ++ text) (hshort : p.name.length < tokenSize) (fuel : ℕ) :
    ∃ s', styleLoop write element (fuel + 1) s = afterColon write (styleLoop write element fuel) p.name element s' ∧
      s'.ahead = p.valueText ++ text ∧ Reading len 0 s' := by
  obtain ⟨s₁, hlex₁, hahead₁, hreading₁⟩ :=
    stylelex_reading hreading (firstToken_placed hahead) fun x hx => Token.string.inj hx ▸ hshort
  have hcolon : firstToken s₁.ahead = (.char colon, p.valueText ++ text) := by
    rw [hahead₁, firstToken_white p.afterName.2]
    exact firstToken_char (.inl rfl) _
  obtain ⟨s₂, hlex₂, hahead₂, hreading₂, -⟩ := stylelex_reading hreading₁ hcolon fun x hx => by simp at hx
  refine ⟨s₂, ?_, hahead₂, hreading₂.mono⟩
  rw [styleLoop, hlex₁, pure_bind]
  dsimp only
  rw [hlex₂, pure_bind]
  exact if_pos rfl

theorem styleText_cons (p : Placed) (ps : List Placed) (ending : Option White) :
    ∃ text, styleText (p :: ps) ending = p.text ++ text ∧
      (text = [] ∧ ps = [] ∧ ending = none ∨
        text = semicolon :: styleText ps ending ∧ ¬ (ps = [] ∧ ending = none)) := by
  rw [styleText]
  split
  · next hend => exact ⟨[], rfl, .inl ⟨rfl, by simpa using hend⟩⟩
  · next hmore => exact ⟨_, rfl, .inr ⟨rfl, by simpa using hmore⟩⟩

/-- The loop reads the declarations of the attribute one by one. -/
theorem styleLoop_eq {len : ℕ} {ending : Option White} {ps : List Placed} : ∀ {fuel : ℕ} {s : Scanner},
    ps.length < fuel → Reading len 0 s → s.ahead = styleText ps ending → Keeps write element len ps ending →
    styleLoop write element fuel s = do
      declared write element (ps.map Placed.toDeclaration)
      return .idle := by
  induction ps with
  | nil =>
    intro fuel s hfuel hreading hahead _
    obtain ⟨fuel, rfl⟩ := Nat.exists_eq_add_of_lt hfuel
    have hfirst : firstToken s.ahead = (.eof, []) := by
      rw [hahead, styleText]
      cases ending with
      | none => rfl
      | some w =>
        have hwhite := firstToken_white w.2 []
        rwa [List.append_nil] at hwhite
    obtain ⟨s', hlex, -, rfl⟩ := stylelex_reading hreading hfirst fun x hx => by simp at hx
    rw [styleLoop_eof hlex]
    rfl
  | cons p ps ih =>
    intro fuel s hfuel hreading hahead hkeeps
    obtain ⟨hempty, hbehind⟩ := hkeeps
    rw [List.length_cons] at hfuel
    obtain ⟨fuel, rfl⟩ : ∃ f, fuel = f + 2 := ⟨fuel - 2, by omega⟩
    obtain ⟨text, htextEq, hshape⟩ := styleText_cons p ps ending
    have htext : AtEnd text := hshape.imp And.left fun h => ⟨_, h.1⟩
    have hrest : (asAttribute write element p.toDeclaration).ends = .ok () →
        Rest (styleLoop write element (fuel + 1)) len text (declared write element (ps.map Placed.toDeclaration)) := by
      intro hok
      obtain ⟨rfl, rfl, -⟩ | ⟨rfl, -⟩ := hshape
      · exact ⟨fun _ => rfl, fun rest hrest => by simp at hrest⟩
      · refine ⟨fun hnil => by simp at hnil, fun rest hrest s hreading hahead => ?_⟩
        obtain ⟨-, rfl⟩ := List.cons.inj hrest
        exact ih (by omega) hreading.mono hahead (hbehind hok)
    have htaken : p.value = [] → chars p.name = "style" → ∀ s, Reading len 1 s → s.buffer ≠ .eofPending →
        text = semicolon :: s.ahead → s.styleStrPtr = [] := by
      intro hnil hstyle s hreading hbuffer hsemicolon
      obtain ⟨rfl, -⟩ | ⟨rfl, hmore⟩ := hshape
      · simp at hsemicolon
      · obtain ⟨-, hrest⟩ := List.cons.inj hsemicolon
        rw [hreading.styleStrPtr_eq_nil_iff hbuffer, ← hrest]
        exact (hempty hstyle hnil).resolve_left hmore
    rw [htextEq] at hahead
    rw [List.map_cons, declared]
    by_cases hshort : p.name.length < tokenSize
    · obtain ⟨s', hround, hahead', hreading'⟩ := styleLoop_round hreading hahead hshort (fuel + 1)
      rw [hround]
      by_cases hnil : p.value = []
      · have hfits : p.Short := ⟨hshort, by rw [hnil]; decide⟩
        rw [if_pos hfits, bind_assoc]
        exact afterColon_empty htext hrest (styleLoop_eof stylelex_idle fuel) hnil (htaken hnil) hreading' hahead'
      · rw [afterColon_value htext hrest hnil hreading' hahead']
        by_cases hvalue : p.value.length < tokenSize
        · rw [if_pos hvalue, if_pos ⟨hshort, hvalue⟩, bind_assoc]
        · rw [if_neg hvalue, if_neg fun hfits => hvalue hfits.2, Output.stop_bind]
    · rw [styleLoop, stylelex_long hreading (firstToken_placed hahead) hshort, if_neg fun hfits => hshort hfits.1,
        Output.stop_bind, Output.stop_bind]

end

end GnuPoc.Svg.Style
