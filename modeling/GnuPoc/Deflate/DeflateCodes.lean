import GnuPoc.Deflate.BitStream
import GnuPoc.Deflate.Decodes
import GnuPoc.Deflate.HuffmanLengths
import GnuPoc.Deflate.InflateRun

/-!
# GnuPoc.Deflate.DeflateCodes — what is written for segments is read as these (`deflate.cpp`, `inflate.cpp`)

A number is written as a code, which says how many bits it has and the upper ones of them, and the lower bits behind it.
The codes that are counted are exactly those that are written, so all of these have code words.
-/

namespace GnuPoc.Deflate

open GnuPoc.Lib

/-! ### Numbers as codes with extra bits -/

theorem extraLoop_spec (value : ℕ) : ∀ extralen, ∃ k, extraLoop extralen value = (extralen + k, value / 2 ^ k) ∧
    value / 2 ^ k < 8 ∧ (0 < k → 4 ≤ value / 2 ^ k) := by
  induction value using Nat.strongRecOn with
  | _ value ih =>
    intro extralen
    rw [extraLoop]
    by_cases hlarge : 8 ≤ value
    · have hhalf : value >>> 1 = value / 2 := by rw [Nat.shiftRight_eq_div_pow]
      obtain ⟨k, hk, hlt, hle⟩ := ih (value / 2) (by omega) (extralen + 1)
      have hdiv : value / 2 / 2 ^ k = value / 2 ^ (k + 1) := by rw [Nat.div_div_eq_div_mul, Nat.pow_succ']
      rw [hdiv] at hk hlt hle
      refine ⟨k + 1, ?_, hlt, fun _ => ?_⟩
      · rw [if_pos hlarge, hhalf, hk, Nat.add_assoc, Nat.add_comm 1 k]
      · rcases Nat.eq_zero_or_pos k with rfl | hpos
        · rw [Nat.zero_add, Nat.pow_one]
          omega
        · exact hle hpos
    · refine ⟨0, ?_, ?_, fun h => absurd h (lt_irrefl 0)⟩
      · rw [if_neg hlarge, Nat.pow_zero, Nat.div_one, Nat.add_zero]
      · rw [Nat.pow_zero, Nat.div_one]
        omega

/-- How many extra bits a number has. -/
def extraBits (value : ℕ) : ℕ := (extraLoop 0 value).1

/-- Its code. -/
def codeOf (value : ℕ) : ℕ := (extraBits value <<< 2) + (extraLoop 0 value).2

theorem codeAndExtra_eq (emit : ℕ → Emit) (base value : ℕ) : codeAndExtra emit base value =
    emit (codeOf value + base) :: if extraBits value ≠ 0 then [.ExtraL (extraBits value) value] else [] := rfl

theorem codeOf_eq (value : ℕ) : codeOf value = 4 * extraBits value + value / 2 ^ extraBits value ∧
    value / 2 ^ extraBits value < 8 ∧ (0 < extraBits value → 4 ≤ value / 2 ^ extraBits value) := by
  obtain ⟨k, hk, hlt, hle⟩ := extraLoop_spec value 0
  rw [Nat.zero_add] at hk
  have hbits : extraBits value = k := by rw [extraBits, hk]
  rw [codeOf, hbits, hk, Nat.shiftLeft_eq]
  exact ⟨by rw [Nat.mul_comm], hlt, hle⟩

/-- A number of `m` bits has at most `m - 3` extra bits, and its code is below that of the next power. -/
theorem codeOf_lt {value m : ℕ} (hm : 3 ≤ m) (h : value < 2 ^ m) :
    extraBits value ≤ m - 3 ∧ codeOf value < 4 * (m - 1) := by
  obtain ⟨hcode, hlt, hle⟩ := codeOf_eq value
  have hbits : extraBits value ≤ m - 3 := by
    by_contra hmany
    have hpos : 0 < extraBits value := by omega
    have hdiv : 4 * 2 ^ extraBits value ≤ value := by
      have hmul := Nat.mul_le_mul_right (2 ^ extraBits value) (hle hpos)
      exact hmul.trans (Nat.div_mul_le_self _ _)
    have hpow : 2 ^ m ≤ 4 * 2 ^ extraBits value := by
      rw [show 4 = 2 ^ 2 from rfl, ← Nat.pow_add]
      exact Nat.pow_le_pow_right (by decide) (by omega)
    omega
  exact ⟨hbits, by omega⟩

theorem readBits_append {n v : ℕ} (rest : List Bool) :
    readBits n (bitString n v ++ rest) = .ok (v % 2 ^ n, rest) := by
  have hlen := length_bitString n v
  rw [readBits, if_pos (by rw [List.length_append]; omega), List.take_left' hlen, List.drop_left' hlen, ofBits_bitString]

theorem withExtra_codeOf (value : ℕ) (rest : List Bool) :
    withExtra (codeOf value) ((if extraBits value ≠ 0 then bitString (extraBits value) (value % 2 ^ extraBits value)
      else []) ++ rest) = .ok (value, rest) := by
  obtain ⟨hcode, hlt, hle⟩ := codeOf_eq value
  rw [withExtra]
  by_cases hextra : extraBits value ≠ 0
  · have hfour := hle (Nat.pos_of_ne_zero hextra)
    have hxtra : (codeOf value >>> 2) - 1 = extraBits value := by
      rw [Nat.shiftRight_eq_div_pow, hcode]
      omega
    have hupper : codeOf value - extraBits value <<< 2 = value / 2 ^ extraBits value := by
      rw [Nat.shiftLeft_eq, hcode]
      omega
    have hlow : value % 2 ^ extraBits value < 2 ^ extraBits value := Nat.mod_lt _ (Nat.two_pow_pos _)
    rw [if_pos (by omega), hxtra, if_pos hextra]
    dsimp only
    rw [readBits_append, ok_bind]
    dsimp only
    rw [hupper, Nat.mod_mod, ← Nat.shiftLeft_add_eq_or_of_lt hlow, Nat.shiftLeft_eq, Nat.div_add_mod']
    rfl
  · have hzero : extraBits value = 0 := not_not.mp hextra
    rw [if_neg hextra, if_neg (by rw [hzero, Nat.pow_zero, Nat.div_one] at hcode hlt; omega), hcode, hzero, Nat.pow_zero,
      Nat.div_one, Nat.mul_zero, Nat.zero_add]
    rfl

/-! ### Items -/

/-- The bits of a call. -/
def Write.bits (w : Write) : List Bool := bitString w.length w.value

/-- The bits of calls one behind the other. -/
def bitsOf (writes : List Write) : List Bool := writes.flatMap Write.bits

theorem bitsOf_cons (w : Write) (writes : List Write) : bitsOf (w :: writes) = w.bits ++ bitsOf writes := rfl

theorem bitsOf_append (writes writes' : List Write) : bitsOf (writes ++ writes') = bitsOf writes ++ bitsOf writes' :=
  List.flatMap_append

/-- The code at `c` is written so that the tree gives it back. -/
def ReadsCode (codes tree : Words) (base c : ℕ) : Prop :=
  ∃ code, codes[c]? = some code ∧ (Write.HuffmanL code).Fits ∧
    ∀ rest, HuffmanL tree ((Write.HuffmanL code).bits ++ rest) = .ok (UInt32.ofNat (c + base), rest)

theorem asTInt_ofNat {n : ℕ} (h : n < 2 ^ 31) : asTInt (UInt32.ofNat n) = n := by
  have hn : (UInt32.ofNat n).toNat = n := UInt32.toNat_ofNat_of_lt' (lt_trans h (by decide))
  rw [asTInt_of_lt (by rw [hn]; exact h), hn]

theorem readItem_literal {tree : Words} {bits rest : List Bool} (byte : UInt8)
    (h : HuffmanL tree bits = .ok (UInt32.ofNat (byte.toNat + 0), rest)) : readItem tree bits = .ok (.literal byte, rest) := by
  have hall : ∀ b < 256, asTInt (UInt32.ofNat (b + 0) - UInt32.ofNat ELiterals) < 0 ∧
      (UInt32.ofNat (b + 0) - UInt32.ofNat ELiterals).toUInt8 = UInt8.ofNat b := by decide +kernel
  obtain ⟨hneg, hbyte⟩ := hall byte.toNat byte.toNat_lt
  rw [readItem, h, ok_bind]
  dsimp only
  rw [if_pos hneg, hbyte, UInt8.ofNat_toNat]
  rfl

theorem readItem_eos {tree : Words} {bits rest : List Bool} (h : HuffmanL tree bits = .ok (UInt32.ofNat (EEos + 0), rest)) :
    readItem tree bits = .ok (.eos, rest) := by
  rw [readItem, h]
  rfl

theorem readItem_code {tree : Words} {bits rest : List Bool} {v : ℕ} (hv : v < 512) (hne : v ≠ 28)
    (h : HuffmanL tree bits = .ok (UInt32.ofNat (v + ELiterals), rest)) : readItem tree bits =
      withExtra (v % 256) rest >>= fun r => .ok (if v < 256 then .length (r.1 + KDeflateMinLength) else .distance (r.1 + 1), r.2) := by
  have hsub : UInt32.ofNat (v + ELiterals) - UInt32.ofNat ELiterals = UInt32.ofNat v := by
    rw [UInt32.ofNat_add, UInt32.add_sub_cancel]
  have hval : asTInt (UInt32.ofNat v) = v := asTInt_ofNat (lt_trans hv (by decide))
  have hspecial : ¬ (v : ℤ) = (EEos - ELiterals : ℕ) := by
    rw [show EEos - ELiterals = 28 from rfl]
    omega
  have hbase : (v : ℤ) < (KDeflateDistCodeBase - ELiterals : ℕ) ↔ v < 256 := by
    rw [show KDeflateDistCodeBase - ELiterals = 256 from rfl]
    omega
  have hnonneg : ¬ (v : ℤ) < 0 := by omega
  rw [readItem, h, ok_bind]
  dsimp only
  rw [hsub, hval, if_neg hnonneg, if_neg hspecial, Int.toNat_natCast]
  refine congrArg (withExtra (v % 256) rest >>= ·) (funext fun r => ?_)
  rw [if_congr hbase rfl rfl]
  by_cases hlength : v < 256
  · rw [if_pos hlength, if_pos hlength]
    rfl
  · rw [if_neg hlength, if_neg hlength]
    rfl

/-! ### The calls for segments -/

section
variable {e : TEncoding} {iLitLen iDistance : Words}

theorem mapM_append_ok {α β : Type} {f : α → Except Fault β} {xs ys : List α} {ws ws' : List β}
    (h : xs.mapM f = .ok ws) (h' : ys.mapM f = .ok ws') : (xs ++ ys).mapM f = .ok (ws ++ ws') := by
  rw [List.mapM_append, h, h']
  rfl

/-- The calls for a number: a code, and what `withExtra` reads behind it. -/
theorem writes_codeAndExtra (emit : ℕ → Emit) {codes tree : Words} {base symbolBase value : ℕ}
    (hemit : ∀ c, TDeflater e (emit c) = (elementAt codes c >>= fun code => .ok (.HuffmanL code)))
    (hreads : ReadsCode codes tree symbolBase (codeOf value + base)) (hbits : extraBits value ≤ 32) :
    ∃ ws, (codeAndExtra emit base value).mapM (TDeflater e) = .ok ws ∧ (∀ w ∈ ws, w.Fits) ∧ ∀ rest, ∃ between,
      HuffmanL tree (bitsOf ws ++ rest) = .ok (UInt32.ofNat (codeOf value + base + symbolBase), between) ∧
        withExtra (codeOf value) between = .ok (value, rest) := by
  obtain ⟨code, hcode, hfits, hread⟩ := hreads
  have hfirst : TDeflater e (emit (codeOf value + base)) = .ok (.HuffmanL code) := by
    rw [hemit, elementAt_nat hcode, ok_bind]
  rw [codeAndExtra_eq]
  by_cases hextra : extraBits value ≠ 0
  · have hlow : (UInt32.ofNat value).toNat % 2 ^ extraBits value = value % 2 ^ extraBits value := by
      rw [UInt32.toNat_ofNat', Nat.mod_mod_of_dvd _ (Nat.pow_dvd_pow 2 hbits)]
    refine ⟨[.HuffmanL code, .WriteL (UInt32.ofNat value) (extraBits value)], ?_, ?_, fun rest => ?_⟩
    · rw [if_pos hextra, List.mapM_cons, hfirst]
      rfl
    · intro w hw
      rcases List.mem_cons.mp hw with rfl | hw
      · exact hfits
      · obtain rfl := List.mem_singleton.mp hw
        exact hbits
    · refine ⟨_, by rw [bitsOf_cons, List.append_assoc, hread], ?_⟩
      have hval := withExtra_codeOf value rest
      rw [if_pos hextra] at hval
      rw [bitsOf_cons, bitsOf, List.flatMap_nil, List.append_nil, Write.bits, Write.length, Write.value, hlow]
      exact hval
  · refine ⟨[.HuffmanL code], ?_, ?_, fun rest => ?_⟩
    · rw [if_neg hextra, List.mapM_cons, hfirst]
      rfl
    · intro w hw
      obtain rfl := List.mem_singleton.mp hw
      exact hfits
    · refine ⟨_, by rw [bitsOf_cons, List.append_assoc, hread], ?_⟩
      have hval := withExtra_codeOf value rest
      rw [if_neg hextra] at hval
      exact hval

theorem writes_length (value : ℕ) (hvalue : value < 256)
    (hreads : ReadsCode e.iLitLen iLitLen 0 (codeOf value + ELiterals)) :
    ∃ ws, (codeAndExtra .LitLenL ELiterals value).mapM (TDeflater e) = .ok ws ∧ (∀ w ∈ ws, w.Fits) ∧ ∀ rest,
      readItem iLitLen (bitsOf ws ++ rest) = .ok (.length (value + KDeflateMinLength), rest) := by
  obtain ⟨hbits, hcode⟩ := codeOf_lt (m := 8) (by decide) hvalue
  obtain ⟨ws, hrun, hfits, hread⟩ := writes_codeAndExtra .LitLenL (fun _ => rfl) hreads (by omega)
  refine ⟨ws, hrun, hfits, fun rest => ?_⟩
  obtain ⟨between, hhuff, hextra⟩ := hread rest
  rw [readItem_code (v := codeOf value) (by omega) (by omega) hhuff, Nat.mod_eq_of_lt (by omega), hextra, ok_bind,
    if_pos (by omega)]

theorem writes_distance (value : ℕ) (hvalue : value < 4096)
    (hreads : ReadsCode e.iDistance iDistance KDeflateDistCodeBase (codeOf value + 0)) :
    ∃ ws, (codeAndExtra .OffsetL 0 value).mapM (TDeflater e) = .ok ws ∧ (∀ w ∈ ws, w.Fits) ∧ ∀ rest,
      readItem iDistance (bitsOf ws ++ rest) = .ok (.distance (value + 1), rest) := by
  obtain ⟨hbits, hcode⟩ := codeOf_lt (m := 12) (by decide) hvalue
  obtain ⟨ws, hrun, hfits, hread⟩ := writes_codeAndExtra .OffsetL (fun _ => rfl) hreads (by omega)
  refine ⟨ws, hrun, hfits, fun rest => ?_⟩
  obtain ⟨between, hhuff, hextra⟩ := hread rest
  have hbase : codeOf value + 0 + KDeflateDistCodeBase = codeOf value + 256 + ELiterals := rfl
  rw [hbase] at hhuff
  rw [readItem_code (by omega) (by omega) hhuff, Nat.add_mod_right, Nat.mod_eq_of_lt (by omega), hextra, ok_bind,
    if_neg (by omega)]

theorem writes_litLen {c : ℕ} (hreads : ReadsCode e.iLitLen iLitLen 0 c) :
    ∃ ws, [Emit.LitLenL c].mapM (TDeflater e) = .ok ws ∧ (∀ w ∈ ws, w.Fits) ∧ ∀ rest,
      HuffmanL iLitLen (bitsOf ws ++ rest) = .ok (UInt32.ofNat (c + 0), rest) := by
  obtain ⟨code, hcode, hfits, hread⟩ := hreads
  refine ⟨[.HuffmanL code], ?_, ?_, fun rest => ?_⟩
  · rw [List.mapM_cons, TDeflater, elementAt_nat hcode]
    rfl
  · intro w hw
    obtain rfl := List.mem_singleton.mp hw
    exact hfits
  · rw [bitsOf_cons, List.append_assoc]
    exact hread rest

/-- The codes of the literals and lengths. -/
def litLens (emits : List Emit) : List ℕ := emits.filterMap fun | .LitLenL c => some c | _ => none

/-- The codes of the distances. -/
def offsets (emits : List Emit) : List ℕ := emits.filterMap fun | .OffsetL c => some c | _ => none

theorem litLens_append (emits emits' : List Emit) : litLens (emits ++ emits') = litLens emits ++ litLens emits' :=
  List.filterMap_append

theorem offsets_append (emits emits' : List Emit) : offsets (emits ++ emits') = offsets emits ++ offsets emits' :=
  List.filterMap_append

theorem litLens_codeAndExtra (base value : ℕ) :
    litLens (codeAndExtra .LitLenL base value) = [codeOf value + base] ∧
      offsets (codeAndExtra .LitLenL base value) = [] ∧ litLens (codeAndExtra .OffsetL base value) = [] ∧
      offsets (codeAndExtra .OffsetL base value) = [codeOf value + base] := by
  simp only [codeAndExtra_eq, litLens, offsets]
  split <;> simp

theorem codes_SegmentL (n d : ℕ) : litLens (SegmentL n d) = [codeOf (n - KDeflateMinLength) + ELiterals] ∧
    offsets (SegmentL n d) = [codeOf (d - 1) + 0] := by
  obtain ⟨hlit, hoff, -, -⟩ := litLens_codeAndExtra ELiterals (n - KDeflateMinLength)
  obtain ⟨-, -, hlit', hoff'⟩ := litLens_codeAndExtra 0 (d - 1)
  rw [SegmentL, litLens_append, offsets_append, hlit, hoff, hlit', hoff']
  exact ⟨rfl, rfl⟩

/-- When every code that is handed on can be read, the calls give bits that say the segments. -/
theorem coded_of_reads {segments : List Segment} {out : List UInt8} (hsound : Sound out segments)
    (hlit : ∀ c ∈ litLens (emitted segments), ReadsCode e.iLitLen iLitLen 0 c)
    (hoff : ∀ c ∈ offsets (emitted segments), ReadsCode e.iDistance iDistance KDeflateDistCodeBase c) :
    ∃ ws, (emitted segments).mapM (TDeflater e) = .ok ws ∧ (∀ w ∈ ws, w.Fits) ∧
      ∀ rest, Coded iLitLen iDistance segments (bitsOf ws ++ rest) := by
  induction segments generalizing out with
  | nil =>
    obtain ⟨ws, hrun, hfits, hread⟩ := writes_litLen (e := e) (hlit EEos (by simp [emitted, litLens]))
    exact ⟨ws, hrun, hfits, fun rest => .eos (readItem_eos (hread rest))⟩
  | cons segment segments ih =>
    have hsplit : emitted (segment :: segments) = segment.emits ++ emitted segments := by
      rw [emitted, List.flatMap_cons, List.append_assoc, emitted]
    rw [hsplit, litLens_append] at hlit
    rw [hsplit, offsets_append] at hoff
    obtain ⟨ws, hrun, hfits, hcoded⟩ := ih hsound.2 (fun c hc => hlit c (List.mem_append_right _ hc))
      fun c hc => hoff c (List.mem_append_right _ hc)
    have hboth : ∀ {front : List Write}, (∀ w ∈ front, w.Fits) → ∀ w ∈ front ++ ws, w.Fits := fun hfront w hw =>
      (List.mem_append.mp hw).elim (hfront w) (hfits w)
    rw [hsplit]
    cases segment with
    | literal byte =>
      obtain ⟨front, hfront, hfrontFits, hread⟩ := writes_litLen (e := e)
        (hlit byte.toNat (by simp [Segment.emits, litLens]))
      refine ⟨front ++ ws, mapM_append_ok hfront hrun, hboth hfrontFits, fun rest => ?_⟩
      rw [bitsOf_append, List.append_assoc]
      exact .literal (readItem_literal byte (hread _)) (hcoded rest)
    | copy n d =>
      obtain ⟨hleast, hmost, hpos, hwindow, -⟩ := hsound.1
      have hleast' : 3 ≤ n := hleast
      have hmost' : n ≤ 258 := hmost
      have hwindow' : d ≤ 4096 := hwindow
      have hmin : KDeflateMinLength = 3 := rfl
      obtain ⟨hlitCodes, hoffCodes⟩ := codes_SegmentL n d
      obtain ⟨lens, hlens, hlensFits, hreadLen⟩ := writes_length (e := e) (n - KDeflateMinLength) (by omega)
        (hlit _ (List.mem_append_left _ (by rw [Segment.emits, hlitCodes]; exact List.mem_singleton_self _)))
      obtain ⟨dists, hdists, hdistsFits, hreadDist⟩ := writes_distance (e := e) (d - 1) (by omega)
        (hoff _ (List.mem_append_left _ (by rw [Segment.emits, hoffCodes]; exact List.mem_singleton_self _)))
      refine ⟨lens ++ dists ++ ws, mapM_append_ok (mapM_append_ok hlens hdists) hrun, hboth fun w hw =>
        (List.mem_append.mp hw).elim (hlensFits w) (hdistsFits w), fun rest => ?_⟩
      rw [bitsOf_append, bitsOf_append, List.append_assoc, List.append_assoc]
      have hlength := hreadLen (bitsOf dists ++ (bitsOf ws ++ rest))
      have hdistance := hreadDist (bitsOf ws ++ rest)
      rw [hmin, Nat.sub_add_cancel hleast'] at hlength
      rw [Nat.sub_add_cancel hpos] at hdistance
      exact .copy hlength hdistance (hcoded rest)

end

end GnuPoc.Deflate
