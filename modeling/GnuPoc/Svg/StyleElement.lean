import GnuPoc.Lib.Outcome
import GnuPoc.Svg.StyleDeclarations

/-!
# GnuPoc.Svg.StyleElement — an element with a style (`encode.cpp`)

The bytes of an element are the same with its declarations in a style and as attributes, where the arrays hold them and
no text is lost to a style in the style.
-/

namespace GnuPoc.Svg.Style

open GnuPoc.Lib
open GnuPoc.Svg.Encode (WriteFunc findAttribute findElementId)

section

variable {write : WriteFunc → Bytes → Call Unit} {element : Bytes}

/-! ### An element -/

/-- The name `style`. -/
def styleName : Bytes := [115, 116, 121, 108, 101]

variable (write element) in
/-- What the declarations as attributes of their own and in one style come to. -/
def Fits : List Declaration → Prop
  | [] => True
  | d :: ds => d.Short ∧ Defined (asAttribute write element d) ∧ ((asAttribute write element d).ends = .ok () → Fits ds)

theorem parseStyle_value {d : Declaration} (hstyle : chars d.name = "style") {s : Scanner}
    (hs : s.buffer = .normal []) :
    parseStyle write d.value element s = do
      asAttribute write element d
      return .idle := by
  have hinit : initStyleTokenizer d.value s = ⟨d.value, .normal []⟩ := by rw [initStyleTokenizer, hs]
  rw [parseStyle, hinit]
  by_cases hnil : d.value = []
  · rw [hnil, asAttribute_style_nil hstyle hnil, pure_bind]
    exact styleLoop_eof stylelex_idle 0
  · by_cases hshort : d.value.length < tokenSize
    · have hwhite : ∀ c ∈ ([] : Bytes), isWhitespace c = true := by simp
      have hend : ∀ c ∈ ([] : Bytes).head?, c = semicolon := by simp
      have hnone : ([] : Bytes) ++ [] = [] ++ [] := rfl
      rw [asAttribute_style hstyle hnil hshort, Output.stop_bind]
      exact styleLoop_value hwhite hend hnone hnil d.value_plain hshort _
    · rw [asAttribute, if_pos hstyle, if_neg hnil, if_neg hshort, Output.stop_bind, styleLoop,
        stylelex_long (reading_text d.value) (firstToken_plain hnil d.value_plain) hshort, Output.stop_bind]

theorem writeAttributes_separate (ds : List Declaration) : ∀ {s : Scanner}, s.buffer = .normal [] →
    ∃ s', writeAttributes write element (ds.map fun d => (d.name, d.value)) s = do
      separate write element ds
      return s' := by
  induction ds with
  | nil =>
    intro s _
    exact ⟨s, rfl⟩
  | cons d ds ih =>
    intro s hs
    obtain ⟨s', hs', hfirst⟩ : ∃ s', s'.buffer = .normal [] ∧
        writeAttribute write (fun value s => parseStyle write value element s) d.name d.value element s = do
          asAttribute write element d
          return s' := by
      by_cases hstyle : chars d.name = "style"
      · exact ⟨.idle, rfl, by rw [writeAttribute, if_pos hstyle, parseStyle_value hstyle hs]⟩
      · exact ⟨s, hs, writeAttribute_eq hstyle _ s⟩
    obtain ⟨s'', hrest⟩ := ih hs'
    refine ⟨s'', ?_⟩
    rw [List.map_cons, writeAttributes, hfirst, bind_assoc, separate, bind_assoc]
    simp only [pure_bind, hrest]

theorem length_le_styleText (ps : List Placed) (ending : Option White) : ps.length ≤ (styleText ps ending).length := by
  induction ps with
  | nil => exact Nat.zero_le _
  | cons p ps ih =>
    have hpos : 0 < p.text.length := by
      rw [Placed.text]
      simp only [List.length_append, List.length_cons]
      omega
    rw [styleText, List.length_append, List.length_cons]
    split
    · next hend =>
      obtain rfl : ps = [] := by simpa using (Bool.and_eq_true_iff.mp hend).1
      simp only [List.length_nil]
      omega
    · rw [List.length_cons]
      omega

theorem writeAttributes_style {ps : List Placed} {ending : Option White}
    (hkeeps : Keeps write element (styleText ps ending).length ps ending) {s : Scanner} (hs : s.buffer = .normal []) :
    writeAttributes write element [(styleName, styleText ps ending)] s = do
      declared write element (ps.map Placed.toDeclaration)
      return .idle := by
  have hinit : initStyleTokenizer (styleText ps ending) s = ⟨styleText ps ending, .normal []⟩ := by
    rw [initStyleTokenizer, hs]
  have hfuel : ps.length < Scanner.left ⟨styleText ps ending, .normal []⟩ + 1 := by
    have hle := length_le_styleText ps ending
    simp only [Scanner.left, List.length_nil]
    omega
  rw [writeAttributes, writeAttribute, if_pos (by decide), parseStyle, hinit,
    styleLoop_eq hfuel (reading_text _) rfl hkeeps, bind_assoc]
  simp only [writeAttributes, pure_bind]

/-! ### The two runs -/

theorem declared_eq_separate {ds : List Declaration} (h : Fits write element ds) :
    declared write element ds = separate write element ds := by
  induction ds with
  | nil => rfl
  | cons d ds ih =>
    obtain ⟨hshort, -, hrest⟩ := h
    rw [declared, separate, if_pos hshort]
    exact Output.bind_congr_of_ok fun _ hok => ih (hrest hok)

theorem defined_declared_iff (ds : List Declaration) :
    Defined (declared write element ds) ↔ Fits write element ds := by
  induction ds with
  | nil => exact ⟨fun _ => trivial, fun _ e he => by simp [declared, pure] at he⟩
  | cons d ds ih =>
    rw [declared, Fits, ← ih]
    by_cases hshort : d.Short
    · rw [if_pos hshort]
      rcases hends : (asAttribute write element d).ends with e | _
      · rw [Output.bind_of_error hends]
        simp [Defined, hends, hshort]
      · rw [Output.bind_of_ok hends]
        simp [Defined, hends, hshort]
    · rw [if_neg hshort]
      constructor
      · intro hdefined
        obtain ⟨err, herr⟩ := hdefined .undefined rfl
        simp at herr
      · rintro ⟨hfits, -⟩
        exact absurd hfits hshort

/-- The tag of an element that is known. -/
def tag (id : ℕ) (attrs : Call Unit) (s : Scanner) : Call Scanner := do
  .emit (writeUint8 id)
  attrs
  .emit (writeUint16 END_ATTRIBUTES)
  return s

theorem startTag_eq_tag {id : ℕ} (hid : findElementId (chars element) = .ok id) {attrs : List (Bytes × Bytes)}
    {s s' : Scanner} {run : Call Unit} (h : writeAttributes write element attrs s = do
      run
      return s') : startTag write element attrs s = tag id run s' := by
  rw [startTag, hid]
  dsimp only
  rw [h, tag]
  simp only [bind_assoc, pure_bind]

theorem tag_defined_iff (id : ℕ) (attrs : Call Unit) (s : Scanner) : Defined (tag id attrs s) ↔ Defined attrs := by
  rw [tag, Output.bind_of_ok rfl]
  rcases hends : attrs.ends with e | _
  · rw [Output.bind_of_error hends]
    simp [Defined, hends]
  · rw [Output.bind_of_ok hends]
    simp [Defined, hends, Output.emit, bind, Output.bind, pure]

theorem tag_written (id : ℕ) (attrs : Call Unit) (s s' : Scanner) :
    (tag id attrs s).written = (tag id attrs s').written := by
  have hbytes : ∀ s, (tag id attrs s).written = writeUint8 id ++ (do
      attrs
      .emit (writeUint16 END_ATTRIBUTES) : Call Unit).written := by
    intro s
    rw [tag, Output.bind_of_ok rfl]
    rcases hends : attrs.ends with e | _
    · rw [Output.bind_of_error hends, Output.bind_of_error hends]
      rfl
    · rw [Output.bind_of_ok hends, Output.bind_of_ok hends]
      simp [Output.emit, bind, Output.bind, pure]
  rw [hbytes, hbytes]

/-- A style and its declarations as attributes write the same bytes if and only if the declarations fit, up to the first
one that does not return. -/
theorem startTag_style_iff (write : WriteFunc → Bytes → Call Unit) (name : Bytes) (ps : List Placed)
    (ending : Option White) (s : Scanner) (hs : s.buffer = .normal [])
    (hkeeps : ∀ id, findElementId (chars name) = .ok id →
      Keeps write name (styleText ps ending).length ps ending) :
    SameBytes (startTag write name [(styleName, styleText ps ending)] s)
        (startTag write name (ps.map fun p => (p.name, p.value)) s) ↔
      ∀ id, findElementId (chars name) = .ok id → Fits write name (ps.map Placed.toDeclaration) := by
  rcases hid : findElementId (chars name) with e | id
  · simp only [startTag, hid]
    refine ⟨fun _ id hok => by simp at hok, fun _ => ⟨rfl, ?_, ?_⟩⟩
    all_goals
      intro stop hstop
      exact ⟨e, (Except.error.inj hstop).symm⟩
  · have hstyle := startTag_eq_tag hid (writeAttributes_style (hkeeps id hid) hs)
    obtain ⟨s', hattributes⟩ := @writeAttributes_separate write name (ps.map Placed.toDeclaration) s hs
    rw [List.map_map] at hattributes
    have hseparate : startTag write name (ps.map fun p => (p.name, p.value)) s = _ := startTag_eq_tag hid hattributes
    rw [hstyle, hseparate]
    constructor
    · intro hsame id' _
      exact (defined_declared_iff _).mp ((tag_defined_iff id _ _).mp hsame.left)
    · intro hfits
      have hall := hfits id rfl
      have hdefined := (defined_declared_iff _).mpr hall
      rw [← declared_eq_separate hall]
      exact ⟨tag_written id _ _ _, (tag_defined_iff id _ _).mpr hdefined, (tag_defined_iff id _ _).mpr hdefined⟩

/-! ### A value of 200 bytes -/

/-- `writeString`, for text of ASCII. -/
def writeAscii (_ : WriteFunc) (value : Bytes) : Call Unit :=
  .emit (writeUint8 (2 * value.length) ++ value.flatMap fun c => writeUint16 c.toNat)

/-- `id: a`. -/
def shortId : Placed where
  name := [105, 100]
  value := [97]
  name_ne := by decide
  name_plain := List.all_eq_true.mp rfl
  value_plain := List.all_eq_true.mp rfl
  beforeName := ⟨[], List.all_eq_true.mp rfl⟩
  afterName := ⟨[], List.all_eq_true.mp rfl⟩
  beforeValue := ⟨[32], List.all_eq_true.mp rfl⟩
  afterValue := ⟨[], List.all_eq_true.mp rfl⟩

/-- ` fill :bc`. -/
def shortFill : Placed where
  name := [102, 105, 108, 108]
  value := [98, 99]
  name_ne := by decide
  name_plain := List.all_eq_true.mp rfl
  value_plain := List.all_eq_true.mp rfl
  beforeName := ⟨[32], List.all_eq_true.mp rfl⟩
  afterName := ⟨[32], List.all_eq_true.mp rfl⟩
  beforeValue := ⟨[], List.all_eq_true.mp rfl⟩
  afterValue := ⟨[], List.all_eq_true.mp rfl⟩

theorem startTag_style_iff_short :
    SameBytes (startTag writeAscii [103] [(styleName, styleText [shortId, shortFill] none)] .idle)
      (startTag writeAscii [103] [(shortId.name, shortId.value), (shortFill.name, shortFill.value)] .idle) := by
  refine (startTag_style_iff writeAscii [103] [shortId, shortFill] none .idle rfl fun id _ => ?_).mpr fun id _ => ?_
  · exact ⟨fun hstyle => absurd hstyle (by decide), fun _ => ⟨fun hstyle => absurd hstyle (by decide), fun _ => trivial⟩⟩
  · have hdefined : ∀ p ∈ [shortId, shortFill], (asAttribute writeAscii [103] p.toDeclaration).ends = .ok () := by
      decide +kernel
    have hreturns : ∀ p ∈ [shortId, shortFill], Defined (asAttribute writeAscii [103] p.toDeclaration) := by
      intro p hp e he
      rw [hdefined p hp] at he
      simp at he
    exact ⟨by decide, hreturns _ (by simp), fun _ => ⟨by decide, hreturns _ (by simp), fun _ => trivial⟩⟩

/-- `id:` with a value of 200 times `a`. -/
def longId : Placed where
  name := [105, 100]
  value := List.replicate 200 97
  name_ne := by decide
  name_plain := List.all_eq_true.mp rfl
  value_plain := fun c hc => by
    rw [List.eq_of_mem_replicate hc]
    decide
  beforeName := ⟨[], List.all_eq_true.mp rfl⟩
  afterName := ⟨[], List.all_eq_true.mp rfl⟩
  beforeValue := ⟨[], List.all_eq_true.mp rfl⟩
  afterValue := ⟨[], List.all_eq_true.mp rfl⟩

/-- The value is written as an attribute, and overflows `curStringToken` in a style. -/
theorem longId_not_same :
    Defined (startTag writeAscii [103] [(longId.name, longId.value)] .idle) ∧
    ¬ SameBytes (startTag writeAscii [103] [(styleName, styleText [longId] none)] .idle)
      (startTag writeAscii [103] [(longId.name, longId.value)] .idle) := by
  have hid : findElementId (chars [103]) = .ok 0x0b := by decide +kernel
  constructor
  · have hok : (startTag writeAscii [103] [(longId.name, longId.value)] .idle).ends = .ok .idle := by
      rfl
    intro e he
    rw [hok] at he
    simp at he
  · intro hsame
    have hkeeps : Keeps writeAscii [103] (styleText [longId] none).length [longId] none :=
      ⟨fun hstyle => absurd hstyle (by decide), fun _ => trivial⟩
    have hdefined := hsame.left
    rw [startTag_eq_tag hid (writeAttributes_style hkeeps rfl), tag_defined_iff, defined_declared_iff] at hdefined
    obtain ⟨⟨-, hvalue⟩, -⟩ := hdefined
    rw [show longId.value = List.replicate 200 97 from rfl, List.length_replicate] at hvalue
    exact absurd hvalue (by decide)

end

end GnuPoc.Svg.Style
