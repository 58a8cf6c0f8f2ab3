import GnuPoc.Pkg.StringToken

/-!
# GnuPoc.Pkg.StringRuns — the runs of `GetStringToken` over segments and escapes

The loop of `GetStringToken` and that of `ParseEscapeChars` take turns.  By induction on what is still to be read,
the string is restored exactly when every escape can be read and what follows is harmless
(`GetStringToken_restores_iff`).
-/

namespace GnuPoc.Pkg

open GnuPoc.Lib

/-! ### Runs over the segments and escapes -/

/-- When the string is restored, from some segments and escapes on; `stale` says whether `escapeChars` still
counts escapes. -/
structure RestoresFrom (stale : Bool) (string : WStr) (items : List StringItem) (follow : List UInt16)
    (erange : Bool) : Prop where
  escapes : EscapesRead erange items
  segment : follow.head? = some 34 → stale = false ∧ ∀ e, StringItem.escape e ∉ items
  bracket : ∀ text, follow = 60 :: text → Harmless string erange text

/-- Segments and escapes that are still to be read behind `str`. -/
structure Ahead (follow : List UInt16) (str : WStr) (items : List StringItem) : Prop where
  alternates : Alternates items
  fits : str.length + (itemsString items).length + 1 ≤ MAX_STRING
  last : follow.head? = some 34 → ∃ segment, items.getLast? = some (.quoted segment)

/-- Inside `ParseEscapeChars`, with `k` escapes found. -/
def EscapesRun (follow : List UInt16) (items : List StringItem) : Prop :=
  ∀ (s : Lexer) (t : StringState) (str : WStr) (k m n : ℕ), s.At (itemsText items ++ follow) →
    HoldsString str s.m_tokenValue → Ahead follow str items → str.length = t.wCount + k →
    (t.done = true ∨ k ≠ 0 ∨ items ≠ []) → (∀ segment rest, items = .quoted segment :: rest → k ≠ 0) →
    items.length < m → items.length < n →
    (LoopRestores (str ++ itemsString items) follow
        ((escapeLoop m (UInt16.ofNat k) >>= afterEscapes n t) s) ↔
      RestoresFrom (decide (k ≠ 0)) (str ++ itemsString items) items follow s.erange)

/-- At the beginning of a turn of `GetStringToken`. -/
def TurnsRun (follow : List UInt16) (items : List StringItem) : Prop :=
  ∀ (s : Lexer) (t : StringState) (str : WStr) (n : ℕ), s.At (itemsText items ++ follow) →
    Begins str s.m_tokenValue → (∀ c ∈ str, c ≠ 0) → Ahead follow str items → t.wCount = str.length →
    items.length < n →
    (LoopRestores (str ++ itemsString items) follow (stringLoop n t s) ↔
      RestoresFrom (decide (t.escapeChars ≠ 0)) (str ++ itemsString items) items follow s.erange)

section
variable {follow : List UInt16}

theorem countEscapes_found {t : StringState} {str : WStr} {k : ℕ} (h : str.length = t.wCount + k)
    (hlen : str.length + 1 ≤ MAX_STRING) (hdone : t.done = true ∨ k ≠ 0) :
    (countEscapes t (UInt16.ofNat k)).wCount = str.length ∧ (countEscapes t (UInt16.ofNat k)).done = true := by
  rw [MAX_STRING] at hlen
  have hk : (UInt16.ofNat k).toNat = k := by
    rw [UInt16.toNat_ofNat']
    omega
  have hzero : UInt16.ofNat k = 0 ↔ k = 0 := by
    rw [← UInt16.toNat_inj, hk]
    rfl
  rw [countEscapes]
  split
  · next h0 =>
    rw [hzero] at h0
    refine ⟨by simp [h, h0], ?_⟩
    rcases hdone with hdone | hne
    · exact hdone
    · exact absurd h0 hne
  · refine ⟨?_, rfl⟩
    rw [hk]
    simp only [MAX_STRING]
    omega

theorem restoresFrom_nil_bracket {stale : Bool} {string : WStr} {text : List UInt16} {erange : Bool} :
    RestoresFrom stale string [] (60 :: text) erange ↔ Harmless string erange text := by
  constructor
  · exact fun h => h.bracket text rfl
  · intro h
    refine ⟨?_, ?_, ?_⟩
    · intro e he
      simp at he
    · simp
    · rintro text' ⟨⟩
      exact h

theorem restoresFrom_nil {stale : Bool} {string : WStr} {erange : Bool} (h60 : follow.head? ≠ some 60)
    (h34 : follow.head? = some 34 → stale = false) : RestoresFrom stale string [] follow erange := by
  refine ⟨?_, ?_, ?_⟩
  · intro e he
    simp at he
  · exact fun h => ⟨h34 h, by simp⟩
  · rintro text rfl
    simp at h60

theorem escapesRun_nil : EscapesRun follow [] := by
  intro s t str k m n hs hstr hahead hcount hdone _ hm _
  obtain ⟨m, rfl⟩ : ∃ m', m = m' + 1 := ⟨m - 1, by simp at hm; omega⟩
  rw [itemsText, List.flatMap_nil, List.nil_append] at hs
  rw [itemsString, List.flatMap_nil, List.append_nil]
  have hne34 : follow.head? ≠ some 34 := by
    intro h
    obtain ⟨segment, hlast⟩ := hahead.last h
    simp at hlast
  obtain ⟨hwCount, htdone⟩ := countEscapes_found hcount hstr.length (by simpa using hdone)
  by_cases h60 : follow.head? = some 60
  · obtain ⟨text, rfl⟩ := List.head?_eq_some_iff.mp h60
    rw [restoresFrom_nil_bracket]
    exact attempt_iff hs hstr hwCount htdone m n
  · have hchar : s.m_pkgChar ≠ 60 := by
      rw [hs.pkgChar]
      exact fun h => h60 ((firstChar_eq_iff (c := 60) (by decide) follow).mp h)
    have hfollow : firstChar follow ≠ 34 :=
      fun h => hne34 ((firstChar_eq_iff (c := 34) (by decide) follow).mp h)
    have hloop : escapeLoop (m + 1) (UInt16.ofNat k) s = (.ok (UInt16.ofNat k), s) := by
      rw [escapeLoop, onChar_neg hchar]
      rfl
    rw [Run.bind_ok hloop, afterEscapes_iff hwCount htdone hs.file hfollow]
    refine iff_of_true ⟨hs.pkgChar, ?_⟩ (restoresFrom_nil h60 fun h => absurd h hne34)
    exact (hstr.begins.terminate hstr.2.1 hstr.length).cstring

variable {items : List StringItem}

theorem getLast?_cons_of_last {item : StringItem}
    (h : follow.head? = some 34 → ∃ segment, (item :: items).getLast? = some (.quoted segment))
    (hitem : items = [] → item.isQuoted = false ∨ follow.head? ≠ some 34) :
    follow.head? = some 34 → ∃ segment, items.getLast? = some (.quoted segment) := by
  intro h34
  obtain ⟨segment, hlast⟩ := h h34
  rcases items with - | ⟨next, items⟩
  · rcases hitem rfl with hitem | hitem
    · simp only [List.getLast?_singleton, Option.some.injEq] at hlast
      rw [hlast] at hitem
      cases hitem
    · exact absurd h34 hitem
  · exact ⟨segment, by simpa [List.getLast?_cons_cons] using hlast⟩

theorem Ahead.rest {str : WStr} {item : StringItem} (h : Ahead follow str (item :: items))
    (hitem : items = [] → item.isQuoted = false ∨ follow.head? ≠ some 34) :
    Ahead follow (str ++ item.string) items where
  alternates := List.isChain_of_isChain_cons h.alternates
  fits := by
    have := h.fits
    simp only [itemsString_cons, List.length_append] at this ⊢
    omega
  last := getLast?_cons_of_last h.last hitem

theorem Ahead.next_escape {str : WStr} {segment : Segment}
    (h : Ahead follow str (.quoted segment :: items)) (hitems : items ≠ []) :
    ∃ e rest, items = .escape e :: rest := by
  rcases items with - | ⟨segment' | e, rest⟩
  · exact absurd rfl hitems
  · have := List.rel_of_isChain_cons_cons h.alternates
    simp [StringItem.isQuoted] at this
  · exact ⟨e, rest, rfl⟩

theorem escapesRun_escape {e : Escape} (ih : EscapesRun follow items) : EscapesRun follow (.escape e :: items) := by
  intro s t str k m n hs hstr hahead hcount hdone _ hm hn
  obtain ⟨m, rfl⟩ : ∃ m', m = m' + 1 := ⟨m - 1, by simp at hm; omega⟩
  have hfits := hahead.fits
  simp only [itemsString_cons, StringItem.string, List.length_append, List.length_singleton] at hfits
  have hat : s.At (60 :: (e.literal ++ 62 :: (itemsText items ++ follow))) := by
    simpa [StringItem.text] using hs
  by_cases hread : e.literal.length < MAX_STRING ∧ s.erange = false
  · obtain ⟨s', hturn, hs', herange, hstr'⟩ := escapeTurn_escape hat hstr (by omega) hread
    have hbracket : s.m_pkgChar = 60 := hat.pkgChar
    have hloop : (escapeLoop (m + 1) (UInt16.ofNat k) >>= afterEscapes n t) s =
        (escapeLoop m (UInt16.ofNat (k + 1)) >>= afterEscapes n t) s' := by
      have hstep : escapeLoop (m + 1) (UInt16.ofNat k) s = escapeLoop m (UInt16.ofNat (k + 1)) s' := by
        rw [escapeLoop, onChar_pos hbracket, Run.bind_ok hturn, if_pos rfl]
        congr 1
        simp
      rw [Run.bind_apply, Run.bind_apply, hstep]
    have hrest := ih s' t (str ++ [e.n]) (k + 1) m n hs' hstr' (hahead.rest fun _ => .inl rfl)
      (by simp; omega) (.inr (.inl (by omega))) (fun _ _ _ => by omega) (by simpa using hm)
      (by simp at hn; omega)
    rw [itemsString_cons, StringItem.string, ← List.append_assoc, hloop, hrest, herange, hread.2]
    constructor
    · intro h
      refine ⟨?_, ?_, h.bracket⟩
      · intro e' he'
        rcases List.mem_cons.mp he' with he' | he'
        · cases he'
          exact ⟨hread.1, rfl⟩
        · exact h.escapes e' he'
      · intro h34
        simpa using (h.segment h34).1
    · intro h
      refine ⟨?_, ?_, h.bracket⟩
      · exact fun e' he' => h.escapes e' (List.mem_cons_of_mem _ he')
      · intro h34
        exact absurd List.mem_cons_self ((h.segment h34).2 e)
  · refine iff_of_false ?_ fun h => hread (h.escapes e List.mem_cons_self)
    exact not_loopRestores_escape hat hread (by simp) m n

theorem escapesRun_quoted {segment : Segment}
    (h : TurnsRun follow (.quoted segment :: items)) : EscapesRun follow (.quoted segment :: items) := by
  intro s t str k m n hs hstr hahead hcount _ hk hm hn
  obtain ⟨m, rfl⟩ : ∃ m', m = m' + 1 := ⟨m - 1, by simp at hm; omega⟩
  have hk0 := hk segment items rfl
  have hfits := hahead.fits
  rw [MAX_STRING] at hfits
  have hchar : s.m_pkgChar = 34 := hs.pkgChar
  have hloop : escapeLoop (m + 1) (UInt16.ofNat k) s = (.ok (UInt16.ofNat k), s) := by
    rw [escapeLoop, onChar_neg (by rw [hchar]; decide)]
    rfl
  obtain ⟨hwCount, -⟩ := countEscapes_found hcount hstr.length (.inr hk0)
  have hfound : UInt16.ofNat k ≠ 0 := by
    rw [← UInt16.toNat_inj.ne, UInt16.toNat_ofNat']
    simp
    omega
  have hturns := h s (countEscapes t (UInt16.ofNat k)) str n hs hstr.begins hstr.2.1 hahead hwCount hn
  rw [countEscapes_escapeChars] at hturns
  rw [Run.bind_ok hloop, afterEscapes, loopEnd, countEscapes_escapeChars, if_neg hfound, onChar_pos hchar, hturns]
  simp [hfound, hk0]

theorem length_itemsText_ge (items : List StringItem) : 2 * items.length ≤ (itemsText items).length := by
  induction items with
  | nil => simp
  | cons item items ih =>
    rw [itemsText_cons, List.length_append, List.length_cons]
    have : 2 ≤ item.text.length := by rcases item with segment | e <;> simp [StringItem.text]
    omega

/-- A quoted segment at the front, and the rest by induction. -/
theorem turnsRun_quoted {segment : Segment} (ih : EscapesRun follow items) :
    TurnsRun follow (.quoted segment :: items) := by
  intro s t str n hs hstr hne hahead hcount hn
  obtain ⟨n, rfl⟩ : ∃ n', n = n' + 1 := ⟨n - 1, by simp at hn; omega⟩
  have hfits := hahead.fits
  simp only [itemsString_cons, StringItem.string, List.length_append, List.length_map] at hfits
  have hat : s.At (34 :: (segment.chars ++ 34 :: (itemsText items ++ follow))) := by
    simpa [StringItem.text] using hs
  obtain ⟨s', hquoted, hs', herange, hstr'⟩ := readQuoted_segment hat hstr hcount (by omega)
  have hne' : ∀ c ∈ str ++ segment.chars.map UInt16.toUInt32, c ≠ 0 := by
    intro c hc
    rcases List.mem_append.mp hc with hc | hc
    · exact hne c hc
    · exact (StringItem.quoted segment).string_ne_zero c hc
  have hchar : s.m_pkgChar = 34 := hat.pkgChar
  rw [stringLoop_quoted hchar hquoted]
  by_cases h60 : s'.m_pkgChar = 60
  · have hfollow : items = [] → follow.head? ≠ some 34 := by
      rintro rfl h34
      rw [hs'.pkgChar, itemsText, List.flatMap_nil, List.nil_append,
        (firstChar_eq_iff (c := 34) (by decide) follow).mpr h34] at h60
      exact absurd h60 (by decide)
    have hholds := hstr'.terminate hne' (by simp; omega)
    have hlen := length_itemsText_ge items
    have hfile := congrArg List.length hs'.file
    simp only [List.length_tail, List.length_append] at hfile
    have hfuel : items.length < s'.m_file.length + 1 := by
      rw [hfile]
      rcases items with - | ⟨item, items⟩
      · simp
      · simp only [List.length_cons] at hlen ⊢
        omega
    have hrest := ih { s' with m_tokenValue := s'.m_tokenValue.set (str.length + segment.chars.length) 0 }
      ⟨str.length + segment.chars.length, true, t.escapeChars⟩ (str ++ segment.chars.map UInt16.toUInt32) 0
      (s'.m_file.length + 1) n ⟨hs'.pkgChar, hs'.file⟩ (by simpa using hholds)
      (hahead.rest fun hnil => .inr (hfollow hnil)) (by simp) (.inl rfl) ?_ hfuel (by simp at hn; omega)
    · rw [if_pos h60, itemsString_cons, StringItem.string, ← List.append_assoc, ← herange]
      refine hrest.trans ?_
      constructor
      · intro h
        refine ⟨?_, ?_, h.bracket⟩
        · intro e he
          rcases List.mem_cons.mp he with he | he
          · cases he
          · exact h.escapes e he
        · intro h34
          obtain ⟨e, rest, rfl⟩ := hahead.next_escape fun hnil => hfollow hnil h34
          exact absurd List.mem_cons_self ((h.segment h34).2 e)
      · intro h
        refine ⟨?_, ?_, h.bracket⟩
        · exact fun e he => h.escapes e (List.mem_cons_of_mem _ he)
        · intro h34
          obtain ⟨e, rest, rfl⟩ := hahead.next_escape fun hnil => hfollow hnil h34
          exact absurd (List.mem_cons_of_mem _ List.mem_cons_self) ((h.segment h34).2 e)
    · rintro segment' rest rfl
      obtain ⟨e, rest', hnext⟩ := hahead.next_escape (by simp)
      cases hnext
  · obtain rfl : items = [] := by
      by_contra hitems
      obtain ⟨e, rest, rfl⟩ := hahead.next_escape hitems
      exact h60 hs'.pkgChar
    rw [itemsText, List.flatMap_nil, List.nil_append] at hs'
    rw [if_neg h60, loopEnd]
    have hends : LoopRestores (str ++ itemsString [.quoted segment]) follow
        (.ok ⟨str.length + segment.chars.length, true, t.escapeChars⟩, s') := by
      refine ⟨_, s', rfl, rfl, ?_, hs'⟩
      have hholds := hstr'.terminate hne' (by simp; omega)
      rw [List.length_append, List.length_map] at hholds
      simpa [StringItem.string, itemsString] using hholds.cstring
    have hfollow60 : follow.head? ≠ some 60 := by
      intro h
      exact h60 (hs'.pkgChar.trans ((firstChar_eq_iff (c := 60) (by decide) follow).mpr h))
    have hrestores : RestoresFrom (decide (t.escapeChars ≠ 0)) (str ++ itemsString [.quoted segment])
        [.quoted segment] follow s.erange ↔ (follow.head? = some 34 → t.escapeChars = 0) := by
      constructor
      · exact fun h h34 => by simpa using (h.segment h34).1
      · intro h
        refine ⟨?_, fun h34 => ⟨by simpa using h h34, by simp⟩, ?_⟩
        · intro e he
          simp at he
        · rintro text rfl
          simp at hfollow60
    rw [hrestores]
    split
    · next h0 => exact iff_of_true hends fun _ => h0
    · next h0 =>
      by_cases h34 : s'.m_pkgChar = 34
      · rw [onChar_pos h34]
        have hhead := (firstChar_eq_iff (c := 34) (by decide) follow).mp (hs'.pkgChar.symm.trans h34)
        exact iff_of_false (not_loopRestores_segment h34 hs'.file n _) fun h => h0 (h hhead)
      · rw [onChar_neg h34]
        refine iff_of_true hends fun hhead => absurd ?_ h34
        exact hs'.pkgChar.trans ((firstChar_eq_iff (c := 34) (by decide) follow).mpr hhead)

theorem runs (items : List StringItem) : EscapesRun follow items ∧
    ∀ segment, TurnsRun follow (.quoted segment :: items) := by
  induction items with
  | nil => exact ⟨escapesRun_nil, fun segment => turnsRun_quoted escapesRun_nil⟩
  | cons item items ih =>
    have hescapes : EscapesRun follow (item :: items) := by
      rcases item with segment | e
      · exact escapesRun_quoted (ih.2 segment)
      · exact escapesRun_escape ih.1
    exact ⟨hescapes, fun segment => turnsRun_quoted hescapes⟩

end

/-! ### `GetStringToken` -/

theorem restored_iff (string : WStr) (follow : List UInt16) (s : Lexer) :
    Restored string follow (GetStringToken s) ↔
      LoopRestores string follow (stringLoop (s.m_file.length + 2) ⟨0, false, 0⟩ s) := by
  have hrun : GetStringToken s = (stringLoop (s.m_file.length + 2) ⟨0, false, 0⟩ >>= fun t =>
      (Run.update (fun s : Lexer => { s with m_tokenValue := s.m_tokenValue.set t.wCount 0 }) >>= fun _ =>
        pure t.done : Lex Bool)) s := rfl
  rw [hrun]
  rcases hloop : stringLoop (s.m_file.length + 2) ⟨0, false, 0⟩ s with ⟨e | t, s'⟩
  · rw [Run.bind_error hloop]
    refine iff_of_false ?_ not_loopRestores_error
    rintro ⟨h, -⟩
    simp at h
  · rw [Run.bind_ok hloop]
    constructor
    · rintro ⟨hdone, hstring, hat⟩
      exact ⟨t, s', rfl, by simpa [Run.bind_apply] using hdone, hstring, hat.pkgChar, hat.file⟩
    · rintro ⟨t', s'', h, hdone, hstring, hat⟩
      obtain ⟨ht, rfl⟩ := Prod.mk.inj h
      obtain rfl := Except.ok.inj ht
      exact ⟨by simpa [Run.bind_apply] using hdone, hstring, hat.pkgChar, hat.file⟩

/-- `GetStringToken` on segments and escapes leaves their string and what follows exactly when every escape can
be read, no further segment follows after an escape, and a `<` that follows is harmless. -/
theorem GetStringToken_restores_iff {items : List StringItem} {follow : List UInt16} {s : Lexer}
    (hitems : items ≠ []) (halternates : Alternates items) (hlen : (itemsString items).length < MAX_STRING)
    (hfollows : Follows items follow) (hs : s.At (itemsText items ++ follow))
    (hmem : s.m_tokenValue.length = MAX_STRING) :
    Restored (itemsString items) follow (GetStringToken s) ↔ Restores items follow s.erange := by
  have hrestores : RestoresFrom false (itemsString items) items follow s.erange ↔
      Restores items follow s.erange :=
    ⟨fun h => ⟨h.escapes, fun h34 => (h.segment h34).2, h.bracket⟩,
      fun h => ⟨h.escapes, fun h34 => ⟨rfl, h.segment h34⟩, h.bracket⟩⟩
  have hbegins : Begins [] s.m_tokenValue := ⟨hmem, _, rfl⟩
  have hahead : Ahead follow [] items := ⟨halternates, by simpa using Nat.succ_le_of_lt hlen, hfollows.noSegment⟩
  have hfuel : items.length < s.m_file.length + 1 := by
    have htext := length_itemsText_ge items
    have hpos := List.length_pos_iff.mpr hitems
    rw [hs.file, List.length_tail, List.length_append]
    omega
  rw [restored_iff]
  rcases items with - | ⟨segment | e, items⟩
  · exact absurd rfl hitems
  · have hrun := (runs items).2 segment s ⟨0, false, 0⟩ [] (s.m_file.length + 2) hs hbegins (by simp) hahead rfl
      (by omega)
    exact hrun.trans hrestores
  · have hholds : HoldsString [] (s.m_tokenValue.set 0 0) := hbegins.terminate (by simp) (by decide)
    have hrun := (runs (.escape e :: items)).1 { s with m_tokenValue := s.m_tokenValue.set 0 0 } ⟨0, false, 0⟩ [] 0
      (s.m_file.length + 1) (s.m_file.length + 1) ⟨hs.pkgChar, hs.file⟩ hholds hahead rfl
      (.inr (.inr (by simp))) (by simp) hfuel hfuel
    have hbracket : s.m_pkgChar = 60 := hs.pkgChar
    rw [stringLoop_bracket hbracket]
    exact hrun.trans hrestores

/-- `"ab"<65>,` -/
theorem GetStringToken_restores_escape :
    Restored [97, 98, 65] [44]
      (GetStringToken ⟨34, [97, 98, 34, 60, 54, 53, 62, 44], List.replicate 255 0, false⟩) := by
  let segment : Segment := ⟨[97, 98], by simp⟩
  let e : Escape := ⟨[54, 53], 65, .unsigned (.decimal (by simp) (by simp [iswdigit])), by decide, by decide⟩
  have hfollows : Follows [.quoted segment, .escape e] [44] := by
    refine ⟨?_, by simp⟩
    rintro ⟨literal, z, rest, -, h⟩
    simp at h
  have halternates : Alternates [.quoted segment, .escape e] := by simp [Alternates, StringItem.isQuoted]
  refine (GetStringToken_restores_iff (by simp) halternates (by decide) hfollows ⟨rfl, rfl⟩
    List.length_replicate).mpr ⟨?_, by simp, by simp⟩
  intro e' he'
  simp only [List.mem_cons, reduceCtorEq, StringItem.escape.injEq, List.not_mem_nil, or_false, false_or] at he'
  subst he'
  exact ⟨by decide, rfl⟩

/-- Behind `"abc"` in `"abc"<"def"` the current character is the quotation mark. -/
theorem bracket_lost : ¬ ∀ (items : List StringItem) (follow : List UInt16) (s : Lexer), items ≠ [] →
    Alternates items → (itemsString items).length < MAX_STRING → Follows items follow →
    s.At (itemsText items ++ follow) → s.m_tokenValue.length = MAX_STRING → s.erange = false →
    Restored (itemsString items) follow (GetStringToken s) := by
  intro h
  let segment : Segment := ⟨[97, 98, 99], by simp⟩
  let s : Lexer := ⟨34, [97, 98, 99, 34, 60, 34, 100, 101, 102, 34], List.replicate 255 0, false⟩
  have hfollows : Follows [.quoted segment] [60, 34, 100, 101, 102, 34] := by
    refine ⟨?_, by simp⟩
    rintro ⟨literal, z, rest, hliteral, htext⟩
    obtain ⟨hne, -⟩ := hliteral.tail_numberChar
    obtain ⟨c, chars, rfl⟩ := List.exists_cons_of_ne_nil hne
    have hhead := hliteral.head_ne_quote
    simp only [List.cons_append, List.cons.injEq, true_and] at htext
    exact hhead htext.1.symm
  obtain ⟨-, -, hat⟩ := h [.quoted segment] [60, 34, 100, 101, 102, 34] s (by simp) (by simp [Alternates])
    (by decide) hfollows ⟨rfl, rfl⟩ List.length_replicate rfl
  have hchar : (GetStringToken s).2.m_pkgChar ≠ 60 := by decide +kernel
  exact hchar hat.pkgChar

end GnuPoc.Pkg
