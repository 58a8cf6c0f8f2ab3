import GnuPoc.Deflate.Inflater
import GnuPoc.Deflate.Segments

/-!
# GnuPoc.Deflate.InflateRun — what reading from an inflater gives (`inflate.cpp`)

Bits that hold sound segments are inflated to the bytes that the segments stand for, in whichever pieces these are read.
The circular buffer is the ring of the last bytes, and a match that has been cut is a copy of which a part is done.
-/

namespace GnuPoc.Deflate

open GnuPoc.Lib

/-- Bits that say segments, and the end behind them. -/
inductive Coded (iLitLen iDistance : Words) : List Segment → List Bool → Prop
  | eos {bits rest : List Bool} (h : readItem iLitLen bits = .ok (.eos, rest)) : Coded iLitLen iDistance [] bits
  | literal {bits rest : List Bool} {byte : UInt8} {segments : List Segment}
      (h : readItem iLitLen bits = .ok (.literal byte, rest)) (hrest : Coded iLitLen iDistance segments rest) :
      Coded iLitLen iDistance (.literal byte :: segments) bits
  | copy {bits between rest : List Bool} {aLength aDistance : ℕ} {segments : List Segment}
      (hlength : readItem iLitLen bits = .ok (.length aLength, between))
      (hdistance : readItem iDistance between = .ok (.distance aDistance, rest))
      (hrest : Coded iLitLen iDistance segments rest) : Coded iLitLen iDistance (.copy aLength aDistance :: segments) bits

section
variable {iLitLen iDistance : Words}

/-! ### Copying in the buffer -/

theorem pointerBack_eq {out start aDistance : ℕ} (hout : out < KDeflateMaxDistance) (hpos : 0 < aDistance)
    (hle : aDistance ≤ KDeflateMaxDistance) (hback : aDistance ≤ start + out) (hstart : KDeflateMaxDistance ∣ start) :
    pointerBack out aDistance = (start + out - aDistance) % KDeflateMaxDistance := by
  obtain ⟨k, rfl⟩ := hstart
  have hsize : KDeflateMaxDistance = 4096 := rfl
  rw [pointerBack]
  by_cases hwrap : out < aDistance
  · rw [if_pos (by omega)]
    obtain ⟨k, rfl⟩ : ∃ k', k = k' + 1 := by
      refine ⟨k - 1, ?_⟩
      have hk : k ≠ 0 := by
        rintro rfl
        omega
      omega
    have hsplit : KDeflateMaxDistance * (k + 1) + out - aDistance =
        out + KDeflateMaxDistance - aDistance + KDeflateMaxDistance * k := by
      rw [Nat.mul_succ]
      omega
    rw [hsplit, Nat.add_mul_mod_self_left, Nat.mod_eq_of_lt (by omega)]
    omega
  · rw [if_neg (by omega)]
    have hsplit : KDeflateMaxDistance * k + out - aDistance = out - aDistance + KDeflateMaxDistance * k := by omega
    rw [hsplit, Nat.add_mul_mod_self_left, Nat.mod_eq_of_lt (by omega)]
    omega

theorem next_mod (n : ℕ) :
    (if n % KDeflateMaxDistance + 1 = KDeflateMaxDistance then n % KDeflateMaxDistance + 1 - KDeflateMaxDistance
      else n % KDeflateMaxDistance + 1) = (n + 1) % KDeflateMaxDistance := by
  have hsize : KDeflateMaxDistance = 4096 := rfl
  rw [hsize]
  split <;> omega

/-- A byte is copied from `d` before. -/
theorem historyLoop_succ {iOut o : List UInt8} {d p : ℕ} (hring : Ring KDeflateMaxDistance iOut o) (hpos : 0 < d)
    (hle : d ≤ KDeflateMaxDistance) (hback : d ≤ o.length) (hp : o.length % KDeflateMaxDistance = p) (tfr : ℕ) :
    ∃ iOut' a, o[o.length - d]? = some a ∧ Ring KDeflateMaxDistance iOut' (o ++ [a]) ∧
      historyLoop (tfr + 1) ((o.length - d) % KDeflateMaxDistance) p iOut =
        if tfr ≠ 0 then historyLoop tfr ((o.length + 1 - d) % KDeflateMaxDistance) (p + 1) iOut'
        else .ok ((o.length + 1 - d) % KDeflateMaxDistance, p + 1, iOut') := by
  have hlt : o.length - d < o.length := by omega
  have hread : iOut[(o.length - d) % KDeflateMaxDistance]? = some o[o.length - d] := by
    rw [hring.back hpos hback hle, List.getElem?_eq_getElem hlt]
  have hin : p < iOut.length := by
    rw [hring.length, ← hp]
    exact Nat.mod_lt _ (by decide)
  have hnext : o.length - d + 1 = o.length + 1 - d := by omega
  refine ⟨iOut.modify p fun _ => o[o.length - d], o[o.length - d], List.getElem?_eq_getElem hlt, ?_, ?_⟩
  · rw [← hp]
    exact hring.push (by decide) _
  · rw [historyLoop, elementAt_nat hread, ok_bind, modifyAt_nat hin, ok_bind]
    dsimp only
    rw [next_mod, hnext]
    rfl

/-- Copying from the circular buffer is copying from what was given out. -/
theorem historyLoop_ok (tfr : ℕ) {iOut o : List UInt8} {d p : ℕ} (hring : Ring KDeflateMaxDistance iOut o) (hpos : 0 < d)
    (hle : d ≤ KDeflateMaxDistance) (hback : d ≤ o.length) (hp : o.length % KDeflateMaxDistance = p)
    (hfits : p + (tfr + 1) ≤ KDeflateMaxDistance) :
    ∃ iOut', historyLoop (tfr + 1) ((o.length - d) % KDeflateMaxDistance) p iOut =
        .ok ((o.length + (tfr + 1) - d) % KDeflateMaxDistance, p + (tfr + 1), iOut') ∧
      Ring KDeflateMaxDistance iOut' (copyBack d (tfr + 1) o) := by
  induction tfr generalizing iOut o p with
  | zero =>
    obtain ⟨iOut', a, ha, hring', hstep⟩ := historyLoop_succ hring hpos hle hback hp 0
    refine ⟨iOut', hstep, ?_⟩
    rw [copyBack_succ 0 ha]
    exact hring'
  | succ tfr ih =>
    obtain ⟨iOut', a, ha, hring', hstep⟩ := historyLoop_succ hring hpos hle hback hp (tfr + 1)
    have hlen : (o ++ [a]).length = o.length + 1 := by rw [List.length_append, List.length_singleton]
    obtain ⟨iOut'', hrun, hring''⟩ := ih (p := p + 1) hring' (by omega) (by
      rw [hlen, ← Nat.mod_add_mod, hp, Nat.mod_eq_of_lt (by omega)]) (by omega)
    rw [hlen] at hrun
    refine ⟨iOut'', ?_, ?_⟩
    · rw [hstep, if_pos (Nat.succ_ne_zero tfr), hrun]
      have hend : o.length + 1 + (tfr + 1) = o.length + (tfr + 1 + 1) := by omega
      have hout : p + 1 + (tfr + 1) = p + (tfr + 1 + 1) := by omega
      rw [hend, hout]
    · rw [copyBack_succ (tfr + 1) ha]
      exact hring''

/-- What is left of a match: `n` bytes from `d` before. -/
structure Rest (h : History) (o : List UInt8) (n d : ℕ) : Prop where
  iLen : h.iLen = n
  positive : 0 < d
  window : d ≤ KDeflateMaxDistance
  back : d ≤ o.length
  pointer : h.iRptr = (o.length - d) % KDeflateMaxDistance

theorem useHistory_ok {h : History} {o : List UInt8} {n d p : ℕ} (hring : Ring KDeflateMaxDistance h.iOut o)
    (hrest : Rest h o n d) (hn : 0 < n) (hp : o.length % KDeflateMaxDistance = p) (hlt : p < KDeflateMaxDistance) :
    ∃ h' t, t = min (KDeflateMaxDistance - p) n ∧ useHistory h p = .ok (h', p + t) ∧
      Ring KDeflateMaxDistance h'.iOut (copyBack d t o) ∧ Rest h' (copyBack d t o) (n - t) d := by
  obtain ⟨tfr, htfr⟩ : ∃ tfr, min (KDeflateMaxDistance - p) n = tfr + 1 :=
    ⟨min (KDeflateMaxDistance - p) n - 1, by omega⟩
  obtain ⟨iOut', hrun, hring'⟩ := historyLoop_ok tfr hring hrest.positive hrest.window hrest.back hp (by omega)
  have hlen := length_copyBack hrest.positive (tfr + 1) hrest.back
  refine ⟨⟨iOut', (o.length + (tfr + 1) - d) % KDeflateMaxDistance, (n : ℤ) - (tfr + 1 : ℕ)⟩, tfr + 1, htfr.symm, ?_,
    hring', ⟨?_, hrest.positive, hrest.window, ?_, ?_⟩⟩
  · rw [useHistory, hrest.iLen, Int.toNat_natCast, htfr, hrest.pointer, hrun, ok_bind]
    rfl
  · dsimp only
    omega
  · rw [hlen]
    exact hrest.back.trans (Nat.le_add_right _ _)
  · rw [hlen]

/-! ### Filling the buffer -/

/-- The bits and the history say how the bytes go on: the rest of a match, and segments behind it. -/
def GoesOn (iLitLen iDistance : Words) (bits : List Bool) (h : History) (o all : List UInt8) : Prop :=
  ∃ n d segments, (h.iLen = 0 ∧ n = 0 ∨ 0 < n ∧ Rest h o n d) ∧ Coded iLitLen iDistance segments bits ∧
    Sound (copyBack d n o) segments ∧ expand (copyBack d n o) segments = all

/-- A buffer that has been filled up to `p'`, and what comes behind it. -/
def Filled (iLitLen iDistance : Words) (bits : List Bool) (h : History) (o all : List UInt8) (p' : ℕ) : Prop :=
  Ring KDeflateMaxDistance h.iOut o ∧ p' ≤ KDeflateMaxDistance ∧
    (h.iLen = -1 ∧ o = all ∨ p' = KDeflateMaxDistance ∧ GoesOn iLitLen iDistance bits h o all)

section
variable {bits rest : List Bool} {h : History} {tree : Words} {p : ℕ}

theorem inflateLoop_full :
    inflateLoop iLitLen iDistance tree bits h KDeflateMaxDistance = .ok (bits, h, KDeflateMaxDistance) := by
  rw [inflateLoop, if_neg (lt_irrefl _)]

theorem inflateLoop_eos (hp : p < KDeflateMaxDistance) (hread : readItem tree bits = .ok (.eos, rest)) :
    inflateLoop iLitLen iDistance tree bits h p = .ok (rest, { h with iLen := -1 }, p) := by
  rw [inflateLoop, if_pos hp]
  split <;> simp_all

theorem inflateLoop_literal {byte : UInt8} (hp : p < KDeflateMaxDistance)
    (hread : readItem tree bits = .ok (.literal byte, rest)) (hin : p < h.iOut.length) :
    inflateLoop iLitLen iDistance tree bits h p =
      inflateLoop iLitLen iDistance tree rest { h with iOut := h.iOut.modify p fun _ => byte } (p + 1) := by
  rw [inflateLoop, if_pos hp]
  split <;> simp_all [modifyAt_nat hin]

theorem inflateLoop_length {aLength : ℕ} (hp : p < KDeflateMaxDistance)
    (hread : readItem tree bits = .ok (.length aLength, rest)) :
    inflateLoop iLitLen iDistance tree bits h p =
      inflateLoop iLitLen iDistance iDistance rest { h with iLen := aLength } p := by
  rw [inflateLoop, if_pos hp]
  split <;> simp_all

theorem inflateLoop_distance {aDistance p' : ℕ} {h' : History} (hp : p < KDeflateMaxDistance)
    (hread : readItem tree bits = .ok (.distance aDistance, rest))
    (huse : useHistory { h with iRptr := pointerBack p aDistance } p = .ok (h', p')) :
    inflateLoop iLitLen iDistance tree bits h p = inflateLoop iLitLen iDistance iLitLen rest h' p' := by
  rw [inflateLoop, if_pos hp]
  split <;> simp_all

end

/-- The inflater gives what the segments stand for, around the circular buffer. -/
theorem inflateLoop_ok {segments : List Segment} {bits : List Bool} (hcoded : Coded iLitLen iDistance segments bits)
    {h : History} {o : List UInt8} {start p : ℕ} (hring : Ring KDeflateMaxDistance h.iOut o)
    (hlen : o.length = start + p) (hstart : KDeflateMaxDistance ∣ start) (hp : p ≤ KDeflateMaxDistance)
    (hiLen : h.iLen = 0) (hsound : Sound o segments) :
    ∃ bits' h' p' o', inflateLoop iLitLen iDistance iLitLen bits h p = .ok (bits', h', p') ∧ o <+: o' ∧
      o'.length = start + p' ∧ Filled iLitLen iDistance bits' h' o' (expand o segments) p' := by
  induction hcoded generalizing h o p with
  | @eos bits rest hread =>
    rcases Nat.lt_or_eq_of_le hp with hlt | rfl
    · exact ⟨rest, { h with iLen := -1 }, p, o, inflateLoop_eos hlt hread, List.prefix_refl o, hlen, hring, hp,
        .inl ⟨rfl, rfl⟩⟩
    · exact ⟨_, _, _, o, inflateLoop_full, List.prefix_refl o, hlen, hring, hp,
        .inr ⟨rfl, 0, 0, _, .inl ⟨hiLen, rfl⟩, .eos hread, hsound, rfl⟩⟩
  | @literal bits rest byte segments hread hrest ih =>
    rcases Nat.lt_or_eq_of_le hp with hlt | rfl
    · have hmod : o.length % KDeflateMaxDistance = p := by
        obtain ⟨k, rfl⟩ := hstart
        rw [hlen, Nat.mul_add_mod, Nat.mod_eq_of_lt hlt]
      have hpush := hring.push (by decide) byte
      rw [hmod] at hpush
      obtain ⟨bits', h', p', o', hrun, hbegins, hlen', hfilled⟩ := ih
        (h := { h with iOut := h.iOut.modify p fun _ => byte }) hpush
        (by rw [List.length_append, List.length_singleton, hlen, Nat.add_assoc]) hlt hiLen hsound.2
      refine ⟨bits', h', p', o', ?_, (List.prefix_append _ _).trans hbegins, hlen', hfilled⟩
      rw [inflateLoop_literal hlt hread (by rw [hring.length]; exact hlt), hrun]
    · exact ⟨_, _, _, o, inflateLoop_full, List.prefix_refl o, hlen, hring, hp,
        .inr ⟨rfl, 0, 0, _, .inl ⟨hiLen, rfl⟩, .literal hread hrest, hsound, rfl⟩⟩
  | @copy bits between rest n d segments hlength hdistance hrest ih =>
    rcases Nat.lt_or_eq_of_le hp with hlt | rfl
    · have hmod : o.length % KDeflateMaxDistance = p := by
        obtain ⟨k, rfl⟩ := hstart
        rw [hlen, Nat.mul_add_mod, Nat.mod_eq_of_lt hlt]
      obtain ⟨⟨hleast, -, hpos, hwindow, hback⟩, hsound'⟩ := hsound
      have hn : 0 < n := lt_of_lt_of_le (by decide) hleast
      have hrestOf : Rest { h with iLen := n, iRptr := pointerBack p d } o n d :=
        ⟨rfl, hpos, hwindow, hback, by rw [hlen] at hback ⊢; exact pointerBack_eq hlt hpos hwindow hback hstart⟩
      obtain ⟨h', t, ht, huse, hring', hrest'⟩ := useHistory_ok
        (h := { h with iLen := n, iRptr := pointerBack p d }) hring hrestOf hn hmod hlt
      have hlen' : (copyBack d t o).length = start + (p + t) := by
        rw [length_copyBack hpos t hback, hlen, Nat.add_assoc]
      have hloop : inflateLoop iLitLen iDistance iLitLen bits h p =
          inflateLoop iLitLen iDistance iLitLen rest h' (p + t) := by
        rw [inflateLoop_length hlt hlength, inflateLoop_distance hlt hdistance huse]
      by_cases hall : t = n
      · subst hall
        obtain ⟨bits', h'', p', o', hrun, hbegins, hlen'', hfilled⟩ := ih hring' hlen' (by omega)
          (by rw [hrest'.iLen, Nat.sub_self]; rfl) hsound'
        exact ⟨bits', h'', p', o', hloop.trans hrun, (prefix_copyBack d t o).trans hbegins, hlen'', hfilled⟩
      · have hfull : p + t = KDeflateMaxDistance := by omega
        have hcopies : copyBack d (n - t) (copyBack d t o) = copyBack d n o := by
          rw [← copyBack_add, show t + (n - t) = n by omega]
        refine ⟨rest, h', p + t, copyBack d t o, ?_, prefix_copyBack d t o, hlen', hring', hfull.le,
          .inr ⟨hfull, n - t, d, segments, .inr ⟨by omega, hrest'⟩, hrest, ?_, ?_⟩⟩
        · rw [hloop, hfull, inflateLoop_full]
        · rw [hcopies]
          exact hsound'
        · rw [hcopies]
          rfl
    · exact ⟨_, _, _, o, inflateLoop_full, List.prefix_refl o, hlen, hring, hp,
        .inr ⟨rfl, 0, 0, _, .inl ⟨hiLen, rfl⟩, .copy hlength hdistance hrest, hsound, rfl⟩⟩

/-! ### `InflateL` -/

theorem prefix_expand (o : List UInt8) (segments : List Segment) : o <+: expand o segments := by
  induction segments generalizing o with
  | nil => exact List.prefix_refl o
  | cons segment segments ih =>
    refine List.IsPrefix.trans ?_ (ih (segment.put o))
    cases segment with
    | literal byte => exact List.prefix_append _ _
    | copy n d => exact prefix_copyBack d n o

/-- Between two calls: `o` is what has been decoded, and `all` is what there is altogether. -/
structure Underway (c : CInflater) (o all : List UInt8) : Prop where
  ring : Ring KDeflateMaxDistance c.history.iOut o
  goesOn : c.history.iLen = -1 ∧ o = all ∨
    KDeflateMaxDistance ∣ o.length ∧ GoesOn c.iLitLen c.iDistance c.iBits c.history o all

theorem Underway.prefix {c : CInflater} {o all : List UInt8} (h : Underway c o all) : o <+: all := by
  rcases h.goesOn with ⟨-, rfl⟩ | ⟨-, n, d, segments, -, -, -, rfl⟩
  · exact List.prefix_refl o
  · exact (prefix_copyBack d n o).trans (prefix_expand _ _)

/-- The bytes from the start of the buffer are those behind a number that the size of the buffer divides. -/
theorem Ring.take_eq {iOut o : List UInt8} {start p : ℕ} (hring : Ring KDeflateMaxDistance iOut o)
    (hstart : KDeflateMaxDistance ∣ start) (hlen : o.length = start + p) (hp : p ≤ KDeflateMaxDistance) :
    iOut.take p = o.drop start := by
  apply List.ext_getElem?
  intro j
  rw [List.getElem?_drop]
  by_cases hj : j < p
  · obtain ⟨k, rfl⟩ := hstart
    have hholds := hring.holds (KDeflateMaxDistance * k + j) (by omega) (by omega)
    rw [Nat.mul_add_mod, Nat.mod_eq_of_lt (by omega)] at hholds
    rw [List.getElem?_take_of_lt hj, hholds]
  · rw [List.getElem?_eq_none (by rw [List.length_take]; omega), List.getElem?_eq_none (by omega)]

/-- The buffer is filled with the bytes that come next; it is left empty only at the end. -/
theorem InflateL_ok {c : CInflater} {o all : List UInt8} (h : Underway c o all) :
    ∃ c' o' p, c.InflateL = .ok (p, c') ∧ Underway c' o' all ∧ o <+: o' ∧ o'.length = o.length + p ∧
      p ≤ KDeflateMaxDistance ∧ c'.history.iOut.take p = o'.drop o.length ∧ (p = 0 → o' = all) ∧
      c'.iAvail = c.iAvail ∧ c'.iLimit = c.iLimit := by
  rcases h.goesOn with ⟨hend, rfl⟩ | ⟨hstart, n, d, segments, hn, hcoded, hsound, rfl⟩
  · refine ⟨c, o, 0, ?_, h, List.prefix_refl o, rfl, Nat.zero_le _, ?_, fun _ => rfl, rfl, rfl⟩
    · rw [CInflater.InflateL, hend, if_pos (by decide)]
      rfl
    · rw [List.take_zero, List.drop_length]
  -- the rest of a match first, and then the loop
  have hfill : ∃ h' bits' o' p, (o <+: o' ∧ o'.length = o.length + p ∧
      Filled c.iLitLen c.iDistance bits' h' o' (expand (copyBack d n o) segments) p) ∧
      c.InflateL = .ok (p, { c with iBits := bits', history := h' }) := by
    rcases hn with ⟨hzero, rfl⟩ | ⟨hpos, hrest⟩
    · obtain ⟨bits', h', p', o', hrun, hbegins, hlen, hfilled⟩ := inflateLoop_ok hcoded (p := 0) h.ring rfl hstart
        (Nat.zero_le _) hzero hsound
      refine ⟨h', bits', o', p', ⟨hbegins, hlen, hfilled⟩, ?_⟩
      rw [CInflater.InflateL, hzero, if_neg (by decide), if_neg (by decide), pure_bind]
      dsimp only
      rw [hrun]
      rfl
    · have hmod : o.length % KDeflateMaxDistance = 0 := Nat.mod_eq_zero_of_dvd hstart
      obtain ⟨h', t, ht, huse, hring', hrest'⟩ := useHistory_ok h.ring hrest hpos hmod (by decide)
      rw [Nat.zero_add] at huse
      have hlen' := length_copyBack hrest.positive t hrest.back
      have hcopies : copyBack d (n - t) (copyBack d t o) = copyBack d n o := by
        rw [← copyBack_add, show t + (n - t) = n by omega]
      have hInflateL : c.InflateL = inflateLoop c.iLitLen c.iDistance c.iLitLen c.iBits h' t >>= fun r =>
          .ok (r.2.2, { c with iBits := r.1, history := r.2.1 }) := by
        rw [CInflater.InflateL, hrest.iLen, if_neg (by omega), if_pos (by omega), huse]
        rfl
      by_cases hall : t = n
      · subst hall
        obtain ⟨bits', h'', p', o', hrun, hbegins, hlen, hfilled⟩ := inflateLoop_ok hcoded (p := t) hring' hlen' hstart
          (by omega) (by rw [hrest'.iLen, Nat.sub_self]; rfl) hsound
        exact ⟨h'', bits', o', p', ⟨(prefix_copyBack d t o).trans hbegins, hlen, hfilled⟩, by rw [hInflateL, hrun]; rfl⟩
      · have hfull : t = KDeflateMaxDistance := by omega
        refine ⟨h', c.iBits, copyBack d t o, t, ⟨prefix_copyBack d t o, hlen', hring', hfull.le,
          .inr ⟨hfull, n - t, d, segments, .inr ⟨by omega, hrest'⟩, hcoded, ?_, ?_⟩⟩, ?_⟩
        · rw [hcopies]
          exact hsound
        · rw [hcopies]
        · rw [hInflateL, hfull, inflateLoop_full]
          rfl
  obtain ⟨h', bits', o', p, ⟨hbegins, hlen, hring', hp, hfilled⟩, hrun⟩ := hfill
  refine ⟨_, o', p, hrun, ⟨hring', ?_⟩, hbegins, hlen, hp, Ring.take_eq hring' hstart hlen hp, ?_, rfl, rfl⟩
  · rcases hfilled with hend | ⟨rfl, hgoesOn⟩
    · exact .inl hend
    · refine .inr ⟨?_, hgoesOn⟩
      rw [hlen]
      exact Nat.dvd_add hstart (Nat.dvd_refl _)
  · rintro rfl
    rcases hfilled with ⟨-, hend⟩ | ⟨hfull, -⟩
    · exact hend
    · exact absurd hfull (by decide)

end

/-! ### `ReadL` -/

/-- The bytes that an inflater still gives: those in its buffer, and those that it will decode. -/
def Delivers (c : CInflater) (data : List UInt8) : Prop :=
  ∃ o all, Underway c o all ∧ c.iAvail ≤ c.iLimit ∧ c.iLimit ≤ KDeflateMaxDistance ∧
    data = (c.history.iOut.drop c.iAvail).take (c.iLimit - c.iAvail) ++ all.drop o.length

/-- Reads of any length give the data in order. -/
theorem readLoop_ok {c : CInflater} {data : List UInt8} (h : Delivers c data) (aBuffer : Bool) (aLength tfr : ℕ) :
    ∃ c', CInflater.readLoop aBuffer aLength tfr c =
        .ok (if aBuffer then data.take aLength else [], tfr + min aLength data.length, c') ∧
      Delivers c' (data.drop aLength) := by
  induction hn : 2 * aLength + (if c.iLimit ≤ c.iAvail then 1 else 0) using Nat.strongRecOn
    generalizing c data aLength tfr with
  | _ n ih =>
  obtain ⟨o, all, hholds, havail, hlimit, rfl⟩ := h
  have hroom : ((c.history.iOut.drop c.iAvail).take (c.iLimit - c.iAvail)).length = c.iLimit - c.iAvail := by
    rw [List.length_take, List.length_drop, hholds.ring.length]
    omega
  have hcopied : (c.history.iOut.drop c.iAvail).take (min aLength (c.iLimit - c.iAvail)) =
      ((c.history.iOut.drop c.iAvail).take (c.iLimit - c.iAvail)).take aLength := by
    rw [List.take_take]
  rw [CInflater.readLoop]
  dsimp only
  rw [hcopied]
  by_cases hall : aLength - min aLength (c.iLimit - c.iAvail) = 0
  · have hle : aLength ≤ c.iLimit - c.iAvail := by omega
    rw [if_pos hall, min_eq_left hle]
    refine ⟨{ c with iAvail := c.iAvail + aLength }, ?_, o, all, ⟨hholds.ring, hholds.goesOn⟩, ?_, hlimit, ?_⟩
    · rw [List.take_append_of_le_length (by omega), List.length_append, hroom, min_eq_left (by omega)]
    · dsimp only
      omega
    · rw [List.drop_append_of_le_length (by omega), List.drop_take, List.drop_drop, Nat.sub_sub]
  · have hlen : min aLength (c.iLimit - c.iAvail) = c.iLimit - c.iAvail := by omega
    rw [if_neg hall, hlen, List.take_of_length_le (l := List.take _ _) (by omega)]
    obtain ⟨c₁, o', p, hrun, hholds', hbegins, hgrows, hp, htake, hend, havail', hlimit'⟩ := InflateL_ok
      (c := { c with iAvail := c.iAvail + (c.iLimit - c.iAvail) }) (o := o) ⟨hholds.ring, hholds.goesOn⟩
    rw [hrun]
    rcases p with _ | p
    · obtain rfl : o' = o := (List.IsPrefix.eq_of_length hbegins hgrows.symm).symm
      obtain rfl := hend rfl
      refine ⟨c₁, ?_, o', o', hholds', by rw [havail', hlimit']; dsimp only; omega, by rw [hlimit']; exact hlimit, ?_⟩
      · rw [List.drop_length, List.append_nil, List.take_of_length_le (i := aLength) (by omega), hroom,
          min_eq_right (by omega)]
      · rw [havail', hlimit']
        dsimp only
        rw [show c.iLimit - (c.iAvail + (c.iLimit - c.iAvail)) = 0 by omega, List.take_zero, List.drop_length,
          List.append_nil, List.drop_eq_nil_of_le (by omega), List.append_nil]
    · have hnext : all.drop o.length = c₁.history.iOut.take (p + 1) ++ all.drop o'.length := by
        rw [htake]
        obtain ⟨tail, rfl⟩ := hholds'.prefix
        rw [List.drop_append_of_le_length (by omega), List.drop_left]
      have hdelivers : Delivers { c₁ with iAvail := 0, iLimit := p + 1 } (all.drop o.length) :=
        ⟨o', all, ⟨hholds'.ring, hholds'.goesOn⟩, Nat.zero_le _, hp, hnext⟩
      have hless : 2 * (aLength - (c.iLimit - c.iAvail)) + 0 < n := by
        rw [← hn]
        split <;> omega
      obtain ⟨c', hread, hdelivers'⟩ := ih _ hless hdelivers (aLength - (c.iLimit - c.iAvail))
        (tfr + (c.iLimit - c.iAvail)) rfl
      refine ⟨c', ?_, ?_⟩
      · dsimp only
        rw [hread, ok_bind]
        dsimp only
        rw [List.take_append, List.length_append, hroom, List.take_of_length_le (i := aLength) (by omega)]
        congr 2
        · cases aBuffer
          · rfl
          · rfl
        · congr 1
          omega
      · rwa [List.drop_append, hroom, List.drop_eq_nil_of_le (by omega), List.nil_append]

/-! ### Calls one behind the other -/

/-- Calls of `ReadL`, each with a buffer or without and the number of bytes. -/
def reads : List (Bool × ℕ) → CInflater → Except Fault (List (List UInt8 × ℕ) × CInflater)
  | [], c => pure ([], c)
  | (aBuffer, aLength) :: calls, c => do
    let (bytes, tfr, c) ← c.ReadL aBuffer aLength
    let (more, c) ← reads calls c
    pure ((bytes, tfr) :: more, c)

/-- What the calls give of the bytes: each goes on where the one before it has stopped. -/
def slices : List (Bool × ℕ) → List UInt8 → List (List UInt8 × ℕ)
  | [], _ => []
  | (aBuffer, aLength) :: calls, data =>
    (if aBuffer then data.take aLength else [], min aLength data.length) :: slices calls (data.drop aLength)

theorem reads_ok {c : CInflater} {data : List UInt8} (h : Delivers c data) (calls : List (Bool × ℕ)) :
    ∃ c', reads calls c = .ok (slices calls data, c') := by
  induction calls generalizing c data with
  | nil => exact ⟨c, rfl⟩
  | cons call calls ih =>
    obtain ⟨c₁, hread, hdelivers⟩ := readLoop_ok h call.1 call.2 0
    obtain ⟨c₂, hreads⟩ := ih hdelivers
    rw [Nat.zero_add] at hread
    refine ⟨c₂, ?_⟩
    rw [reads, CInflater.ReadL, hread, ok_bind]
    dsimp only
    rw [hreads]
    rfl

theorem start_delivers (memory : ℕ → UInt8) {iLitLen iDistance : Words} {segments : List Segment} {bits : List Bool}
    (hcoded : Coded iLitLen iDistance segments bits) (hsound : Sound [] segments) :
    Delivers (.start memory iLitLen iDistance bits) (expand [] segments) := by
  refine ⟨[], expand [] segments, ⟨.nil (by simp [CInflater.start]), .inr ⟨Nat.dvd_zero _, ?_⟩⟩, le_rfl, Nat.zero_le _, ?_⟩
  · exact ⟨0, 0, segments, .inl ⟨rfl, rfl⟩, hcoded, hsound, rfl⟩
  · simp [CInflater.start]

/-- However the bytes are read and skipped, the calls give the bytes that the segments stand for, one after the other,
and nothing behind the last one. -/
theorem reads_of_coded (memory : ℕ → UInt8) {iLitLen iDistance : Words} {segments : List Segment} {bits : List Bool}
    (hcoded : Coded iLitLen iDistance segments bits) (hsound : Sound [] segments) (calls : List (Bool × ℕ)) :
    ∃ c, reads calls (.start memory iLitLen iDistance bits) = .ok (slices calls (expand [] segments), c) :=
  reads_ok (start_delivers memory hcoded hsound) calls

/-- A tree of a letter and the end mark. -/
theorem reads_of_coded_sample : ∃ c, reads [(true, 1), (false, 1), (true, 5), (true, 5)]
    (.start (fun _ => 0) [0x023900c3] [] [false, false, false, true]) =
      .ok ([([97], 1), ([], 1), ([97], 1), ([], 0)], c) := by
  have hletter : ∀ rest, readItem [0x023900c3] (false :: rest) = .ok (.literal 97, rest) := fun rest => by
    rw [readItem, HuffmanL, huffmanLoop]
    rfl
  have hend : readItem [0x023900c3] [true] = .ok (.eos, []) := by decide +kernel
  have hcoded : Coded [0x023900c3] [] [.literal 97, .literal 97, .literal 97] [false, false, false, true] :=
    .literal (hletter _) (.literal (hletter _) (.literal (hletter _) (.eos hend)))
  exact reads_of_coded (fun _ => 0) hcoded ⟨trivial, trivial, trivial, trivial⟩
    [(true, 1), (false, 1), (true, 5), (true, 5)]

end GnuPoc.Deflate
