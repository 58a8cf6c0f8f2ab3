import GnuPoc.Genaif.Captions

/-!
# GnuPoc.Genaif.AifLayout — where the parts of an AIF stand

What `writeAif` writes for a bitmap file with icons and masks, part by part, and the conditions under which a
reader of the trailer finds the captions and the bitmaps.
-/

namespace GnuPoc.Genaif

open GnuPoc.Lib

/-! ### The bitmap file and the AIF -/

/-- The header of a bitmap; the width is its third word. -/
def BITMAPHEADER : ℕ := 40

/-- A bitmap file with pairs of an icon and a mask. -/
structure IsMbm (mbm : Bytes) (trailer : ℕ) (icons : List (UInt32 × UInt32)) : Prop where
  /-- The offsets in it are of type `int`. -/
  ints : mbm.length < 2147483648
  uids : wordAt mbm 0 = 0x10000037 ∧ wordAt mbm 4 = 0x10000042
  offset : wordAt mbm 16 = trailer
  front : 20 ≤ trailer
  table : leBytes 4 (2 * icons.length) ++ icons.flatMap (fun p => PutLong p.1 ++ PutLong p.2) <+: mbm.drop trailer
  inside : ∀ p ∈ icons, 20 ≤ p.1.toNat ∧ p.1.toNat + BITMAPHEADER ≤ trailer

/-- The width in the header of a bitmap. -/
def widthAt (mbm : Bytes) (offset : UInt32) : ℕ := wordAt mbm (offset.toNat + 8)

/-- An AIF whose trailer at `trailer` has the captions and the icons. -/
structure WellFormed (uni : Bool) (captions : List Caption) (mbm : Bytes) (icons : List (UInt32 × UInt32)) (aif : Bytes)
    (trailer : ℕ) : Prop where
  offset : wordAt aif 16 = trailer
  size : aif.length = trailer + (1 + 6 * captions.length) + (1 + 6 * icons.length) + 16
  captionCount : ∃ b : UInt8, readAt aif trailer 1 = [b] ∧ b.toNat = 2 * captions.length
  caption : ∀ k c, captions[k]? = some c → readAt aif (trailer + (5 + 6 * k)) 2 = [c.lang, 0] ∧
    ∃ b : UInt8, readAt aif (wordAt aif (trailer + (1 + 6 * k))) (1 + c.text.length) = b :: c.text ∧
      b.toNat = 4 * c.text.length + if uni then 0 else 2
  iconCount : ∃ b : UInt8, readAt aif (trailer + (1 + 6 * captions.length)) 1 = [b] ∧ b.toNat = 2 * icons.length
  icon : ∀ k p, icons[k]? = some p →
    wordAt aif (trailer + (1 + 6 * captions.length) + (1 + 6 * k)) = p.1.toNat ∧
    ofLE (readAt aif (trailer + (1 + 6 * captions.length) + (5 + 6 * k)) 2) = widthAt mbm p.1 ∧
    readAt aif p.1.toNat BITMAPHEADER = readAt mbm p.1.toNat BITMAPHEADER

/-! ### The numbers -/

theorem toNat_ofNat {n : ℕ} (h : n < 2147483648) : (UInt32.ofNat n).toNat = n := by
  rw [UInt32.toNat_ofNat']
  exact Nat.mod_eq_of_lt (by omega)

theorem intOf_ofNat {n : ℕ} (h : n < 2147483648) : intOf (UInt32.ofNat n) = n := by
  have hbits : (UInt32.ofNat n).toBitVec.toNat = n := toNat_ofNat h
  show (UInt32.ofNat n).toBitVec.toInt = n
  rw [BitVec.toInt_eq_toNat_of_lt (by rw [hbits]; omega), hbits]

theorem PutLong_toWord (n : ℕ) : PutLong (toWord n) = leBytes 4 n := by
  have hnat : ((n : ℤ) % 4294967296).toNat = n % 4294967296 := by omega
  rw [PutLong_eq, toWord, hnat, UInt32.toNat_ofNat']
  show leBytes 4 (n % 256 ^ 4 % 256 ^ 4) = _
  rw [Nat.mod_mod, leBytes_mod]

theorem toUInt8_ofNat (n : ℕ) : (UInt32.ofNat n).toUInt8 = UInt8.ofNat n := by
  rw [← UInt8.toNat_inj, UInt32.toNat_toUInt8, UInt32.toNat_ofNat', UInt8.toNat_ofNat']
  omega

theorem wordAt_lt (file : Bytes) (pos : ℕ) : wordAt file pos < 4294967296 := ofLE_take_lt 4 _

theorem short_eq (w : UInt32) : [(w &&& 0xff).toUInt8, ((w &&& 0xff00) >>> 8).toUInt8] = leBytes 2 w.toNat := by
  have hhigh : (w &&& 0xff00) >>> 8 = w >>> 8 &&& 0xff := by
    rw [← UInt32.toNat_inj, UInt32.toNat_and, UInt32.toNat_shiftRight, UInt32.toNat_shiftRight, UInt32.toNat_and,
      Nat.shiftRight_and_distrib]
    rfl
  rw [hhigh, lowByte_eq, lowByte_eq, toNat_shiftRight _ (by decide)]
  rfl

/-! ### The copy -/

/-- The copy takes the bytes up to the trailer. -/
theorem copyMbm_eq {mbm : Bytes} {trailer pos fuel rd : ℕ} (e : Bool) (hlen : trailer ≤ mbm.length) (hpos : pos ≤ trailer)
    (hfuel : trailer - pos < fuel) (hrd : rd ≠ 0) :
    ∃ rd', rd' ≠ 0 ∧ copyMbm trailer fuel pos rd ⟨mbm, pos, e⟩ = .ok (readAt mbm pos (trailer - pos), rd', ⟨mbm, trailer, e⟩) := by
  induction fuel generalizing pos rd with
  | zero => omega
  | succ fuel ih =>
    rw [copyMbm]
    by_cases hend : pos = trailer
    · subst hend
      rw [if_neg (by omega), Nat.sub_self]
      exact ⟨rd, hrd, rfl⟩
    · rw [if_pos ⟨by omega, hrd⟩]
      obtain ⟨n, hn, hn0, hnle⟩ : ∃ n, (if 1024 < (trailer : ℤ) - pos then 1024 else ((trailer : ℤ) - pos).toNat) = n ∧
          0 < n ∧ n ≤ trailer - pos := by
        refine ⟨_, rfl, ?_, ?_⟩
        · split <;> omega
        · split <;> omega
      have hread : (⟨mbm, pos, e⟩ : Stream).fread n = (readAt mbm pos n, ⟨mbm, pos + n, e⟩) := by
        have hfull : (readAt mbm pos n).length = n := length_readAt_of_le (by omega)
        show (readAt mbm pos n, (⟨mbm, pos + (readAt mbm pos n).length, e || decide ((readAt mbm pos n).length < n)⟩ : Stream)) = _
        rw [hfull, decide_eq_false (lt_irrefl n), Bool.or_false]
      obtain ⟨rd', hrd', hrest⟩ := ih (by omega : pos + n ≤ trailer) (by omega) (by omega : n ≠ 0)
      have hparts : readAt mbm pos (trailer - pos) = readAt mbm pos n ++ readAt mbm (pos + n) (trailer - (pos + n)) := by
        rw [← readAt_add]
        congr 1
        omega
      refine ⟨rd', hrd', ?_⟩
      rw [hn, hread]
      dsimp only
      rw [length_readAt_of_le (by omega), ← Nat.cast_add, hrest, outcome_ok_bind, hparts]

/-! ### The icons -/

/-- The words of the table that are left to be read. -/
def iconWords (icons : List (UInt32 × UInt32)) : Bytes := icons.flatMap fun p => PutLong p.1 ++ PutLong p.2

/-- What is written for an icon. -/
def iconEntry (mbm : Bytes) (p : UInt32 × UInt32) : Bytes := PutLong p.1 ++ leBytes 2 (widthAt mbm p.1)

theorem length_flatMap_const {α : Type} {f : α → Bytes} {k : ℕ} (l : List α) (h : ∀ a, (f a).length = k) :
    (l.flatMap f).length = k * l.length := by
  induction l with
  | nil => rfl
  | cons a l ih => rw [List.flatMap_cons, List.length_append, h, ih, List.length_cons, Nat.mul_succ, Nat.add_comm]

theorem length_iconEntry (mbm : Bytes) (p : UInt32 × UInt32) : (iconEntry mbm p).length = 6 := by
  rw [iconEntry, List.length_append, length_PutLong, length_leBytes]

theorem iconTurn_eq {mbm : Bytes} {pos : ℕ} {p : UInt32 × UInt32} {tail : Bytes} (hints : mbm.length < 2147483648)
    (hword : mbm.drop pos = PutLong p.1 ++ (PutLong p.2 ++ tail)) (hinside : p.1.toNat + 12 ≤ mbm.length) :
    iconTurn ⟨mbm, pos, false⟩ = (iconEntry mbm p, ⟨mbm, pos + 8, false⟩) := by
  have hlen : pos + 8 ≤ mbm.length := by
    have h := congrArg List.length hword
    simp only [List.length_drop, List.length_append, length_PutLong] at h
    omega
  have hoffset : intOf p.1 = (p.1.toNat : ℤ) := by
    have h := intOf_ofNat (n := p.1.toNat) (by omega)
    rwa [UInt32.ofNat_toNat] at h
  have hseek : ∀ (file : Bytes) (q q' : ℕ), (⟨file, q', false⟩ : Stream).fseek (q : ℤ) = ⟨file, q, false⟩ := by
    intro file q q'
    rw [Stream.fseek, if_neg (by omega), Int.toNat_natCast]
  have hback : intOf (UInt32.ofNat (⟨mbm, pos + 4, false⟩ : Stream).ftell) = ((pos + 4 : ℕ) : ℤ) :=
    intOf_ofNat (by show pos + 4 < 2147483648; omega)
  rw [iconTurn, GetLong_PutLong (s := ⟨mbm, pos, false⟩) hword]
  dsimp only
  rw [hback, hoffset, hseek, GetLong_at false (by omega)]
  dsimp only
  rw [GetLong_at false (by omega)]
  dsimp only
  rw [GetLong_at false (by omega)]
  dsimp only
  rw [hseek, GetLong_at false (by omega), short_eq, UInt32.toNat_ofNat']
  dsimp only
  rw [Nat.mod_eq_of_lt (wordAt_lt mbm _)]
  rfl

/-- **The pictures.**  Every icon is entered with its offset and its width. -/
theorem iconTurns_eq {mbm : Bytes} {icons : List (UInt32 × UInt32)} {pos : ℕ} (hints : mbm.length < 2147483648)
    (htable : iconWords icons <+: mbm.drop pos) (hinside : ∀ p ∈ icons, p.1.toNat + 12 ≤ mbm.length) :
    iconTurns icons.length ⟨mbm, pos, false⟩ = icons.flatMap (iconEntry mbm) := by
  induction icons generalizing pos with
  | nil => rfl
  | cons p icons ih =>
    obtain ⟨tail, htail⟩ := htable
    have hword : mbm.drop pos = PutLong p.1 ++ (PutLong p.2 ++ (iconWords icons ++ tail)) := by
      rw [← htail, iconWords, List.flatMap_cons, List.append_assoc, List.append_assoc, iconWords]
    have hnext : iconWords icons <+: mbm.drop (pos + 8) := by
      refine ⟨tail, ?_⟩
      rw [← List.drop_drop, hword]
      rfl
    rw [List.length_cons, iconTurns, iconTurn_eq hints hword (hinside p List.mem_cons_self),
      ih hnext fun q hq => hinside q (List.mem_cons_of_mem _ hq), List.flatMap_cons]

/-! ### The captions -/

/-- The entries of the captions, the text of the first of which stands at `pos`. -/
def capTable (pos : ℕ) (cs : List Caption) : Bytes := ((capPositions pos cs).zipWith captionEntry cs).flatten

theorem capTable_cons (pos : ℕ) (c : Caption) (cs : List Caption) :
    capTable pos (c :: cs) = leBytes 4 pos ++ [c.lang, 0] ++ capTable (pos + (c.text.length + 1)) cs := by
  rw [capTable, capPositions, List.zipWith_cons_cons, List.flatten_cons, captionEntry, PutLong_toWord, capTable]
  push_cast
  rw [Int.add_assoc]

theorem length_capTable (pos : ℕ) (cs : List Caption) : (capTable pos cs).length = 6 * cs.length := by
  induction cs generalizing pos with
  | nil => rfl
  | cons c cs ih =>
    rw [capTable_cons, List.length_append, ih, List.length_append, length_leBytes, List.length_cons]
    simp only [List.length_cons, List.length_nil]
    omega

theorem capTable_append (pos : ℕ) (cs cs' : List Caption) :
    capTable pos (cs ++ cs') = capTable pos cs ++ capTable (pos + captionSize cs) cs' := by
  induction cs generalizing pos with
  | nil => rfl
  | cons c cs ih =>
    have hsize : captionSize (c :: cs) = c.text.length + 1 + captionSize cs := rfl
    rw [List.cons_append, capTable_cons, ih, capTable_cons, List.append_assoc _ (capTable _ cs), hsize, Nat.add_assoc]

theorem captionSize_le {cs : List Caption} (h : ∀ c ∈ cs, c.text.length ≤ 63) : captionSize cs ≤ 64 * cs.length := by
  induction cs with
  | nil => rfl
  | cons c cs ih =>
    have hc := h c List.mem_cons_self
    have hcs := ih fun c' hc' => h c' (List.mem_cons_of_mem _ hc')
    show c.text.length + 1 + captionSize cs ≤ 64 * (cs.length + 1)
    omega

theorem length_captions (uni : Bool) (cs : List Caption) : (cs.flatMap (captionBytes uni)).length = captionSize cs := by
  rw [List.length_flatMap, captionSize]
  rfl

/-! ### The whole file -/

namespace IsMbm

variable {mbm : Bytes} {trailer : ℕ} {icons : List (UInt32 × UInt32)}

theorem table_le (h : IsMbm mbm trailer icons) : trailer + 4 + 8 * icons.length ≤ mbm.length := by
  have hlen := h.table.length_le
  have hwords : (icons.flatMap fun p => PutLong p.1 ++ PutLong p.2).length = 8 * icons.length :=
    length_flatMap_const icons fun p => rfl
  rw [List.length_append, length_leBytes, hwords, List.length_drop] at hlen
  omega

theorem count (h : IsMbm mbm trailer icons) : wordAt mbm trailer = 2 * icons.length := by
  obtain ⟨tail, htail⟩ := h.table
  have hle := h.table_le
  have hints := h.ints
  rw [wordAt, readAt, ← htail, List.append_assoc, List.take_left' (length_leBytes 4 _)]
  exact ofLE_leBytes_of_lt (by omega)

theorem pairs (h : IsMbm mbm trailer icons) : iconWords icons <+: mbm.drop (trailer + 4) := by
  obtain ⟨tail, htail⟩ := h.table
  refine ⟨tail, ?_⟩
  rw [← List.drop_drop, ← htail, List.append_assoc, List.drop_left' (length_leBytes 4 _)]
  rfl

end IsMbm

/-- The number of the pictures and their entries. -/
def pictures (mbm : Bytes) (icons : List (UInt32 × UInt32)) : Bytes :=
  UInt8.ofNat (2 * icons.length) :: icons.flatMap (iconEntry mbm)

def lastWords (v : Vars) : Bytes := PutLong 0x00000001 ++ PutLong v.embed ++ PutLong v.newfile ++ PutLong v.hidden

/-- **What is written** for a bitmap file with icons. -/
theorem writeMbm_eq {mbm : Bytes} {trailer : ℕ} {icons : List (UInt32 × UInt32)} (uni : Bool) (v : Vars)
    (h : IsMbm mbm trailer icons) (hne : icons ≠ []) :
    writeMbm uni v (Stream.fopen mbm) = .ok (leBytes 4 (trailer + v.rd) ++ readAt mbm 20 (trailer - 20) ++
      v.caps.flatMap (captionBytes uni) ++ UInt8.ofNat (2 * v.caps.length) :: capTable trailer v.caps ++
      pictures mbm icons ++ lastWords v) := by
  have hle := h.table_le
  have hints := h.ints
  have hfront := h.front
  have hpos : 0 < icons.length := List.length_pos_iff.mpr hne
  have hno : intOf (UInt32.ofNat trailer) = (trailer : ℤ) := intOf_ofNat (by omega)
  have hpics : intOf (UInt32.ofNat (2 * icons.length)) = ((2 * icons.length : ℕ) : ℤ) := intOf_ofNat (by omega)
  have heven : ¬ (((2 * icons.length : ℕ) : ℤ).tmod 2 ≠ 0 ∨ ((2 * icons.length : ℕ) : ℤ) = 0) := by
    have hmod : ((2 * icons.length : ℕ) : ℤ).tmod 2 = ((2 * icons.length % 2 : ℕ) : ℤ) := rfl
    rw [hmod, Nat.mul_mod_right]
    omega
  have hhalf : ((2 * icons.length : ℕ) : ℤ).toNat / 2 = icons.length := by omega
  obtain ⟨rd, hrd, hcopy⟩ := copyMbm_eq false (by omega : trailer ≤ mbm.length) hfront
    (by omega : trailer - 20 < mbm.length + 2) (by omega : 1 ≠ 0)
  have hturns := iconTurns_eq hints h.pairs fun p hp => by
    have hin := (h.inside p hp).2
    rw [BITMAPHEADER] at hin
    omega
  have hword : ∀ pos, pos + 4 ≤ 20 → GetLong ⟨mbm, pos, false⟩ = (UInt32.ofNat (wordAt mbm pos), ⟨mbm, pos + 4, false⟩) :=
    fun pos hpos => GetLong_at false (by omega)
  have hoffset : PutLong (toWord ((trailer : ℤ) + v.rd)) = leBytes 4 (trailer + v.rd) := by
    rw [← Nat.cast_add, PutLong_toWord]
  rw [writeMbm, Stream.fopen, hword 0 (by omega), h.uids.1]
  dsimp only
  rw [hword 4 (by omega), h.uids.2]
  dsimp only
  rw [if_neg (by decide), hword 8 (by omega)]
  dsimp only
  rw [hword 12 (by omega)]
  dsimp only
  rw [hword 16 (by omega), h.offset]
  dsimp only
  rw [hno]
  rw [show ((20 : ℕ) : ℤ) = 20 from rfl] at hcopy
  rw [hcopy, outcome_ok_bind]
  dsimp only
  rw [if_neg hrd, GetLong_at false (by omega), h.count]
  dsimp only
  rw [hpics, if_neg heven, hhalf, hturns, hoffset, toUInt8_ofNat]
  simp only [pictures, lastWords, capTable, List.append_assoc, List.cons_append]

/-! ### Reading it back -/

theorem exists_split {α : Type} {l : List α} {k : ℕ} {a : α} (h : l[k]? = some a) :
    ∃ before behind, l = before ++ a :: behind ∧ before.length = k := by
  obtain ⟨hlt, hget⟩ := List.getElem?_eq_some_iff.mp h
  refine ⟨l.take k, l.drop (k + 1), ?_, List.length_take_of_le hlt.le⟩
  rw [← hget, ← List.drop_eq_getElem_cons hlt, List.take_append_drop]

theorem readAt_part {before bytes : Bytes} (behind : Bytes) {pos n : ℕ} (hpos : before.length = pos) (hn : bytes.length = n) :
    readAt (before ++ (bytes ++ behind)) pos n = bytes := by
  rw [← hpos, ← hn, readAt_middle]

section
variable {uni : Bool} {captions : List Caption} {mbm : Bytes} {trailer : ℕ} {icons : List (UInt32 × UInt32)}
  {head last : Bytes}

/-- The bytes up to where the trailer of the bitmap file was. -/
def frontOf (head : Bytes) (captions : List Caption) (mbm : Bytes) (trailer : ℕ) : Bytes :=
  head ++ leBytes 4 (trailer + captionSize captions) ++ readAt mbm 20 (trailer - 20)

/-- The trailer of the AIF. -/
def trailerOf (captions : List Caption) (mbm : Bytes) (trailer : ℕ) (icons : List (UInt32 × UInt32)) (last : Bytes) : Bytes :=
  UInt8.ofNat (2 * captions.length) :: capTable trailer captions ++ (pictures mbm icons ++ last)

/-- The AIF as `writeAif` puts it together. -/
def aifOf (head : Bytes) (uni : Bool) (captions : List Caption) (mbm : Bytes) (trailer : ℕ) (icons : List (UInt32 × UInt32))
    (last : Bytes) : Bytes :=
  frontOf head captions mbm trailer ++ (captions.flatMap (captionBytes uni) ++ trailerOf captions mbm trailer icons last)

theorem length_frontOf (h : IsMbm mbm trailer icons) (hhead : head.length = 16) :
    (frontOf head captions mbm trailer).length = trailer := by
  have hle := h.table_le
  have hfront := h.front
  rw [frontOf, List.length_append, List.length_append, hhead, length_leBytes, length_readAt_of_le (by omega)]
  omega

theorem readAt_bitmaps (h : IsMbm mbm trailer icons) (hhead : head.length = 16) {pos n : ℕ} (hpos : 20 ≤ pos)
    (hn : pos + n ≤ trailer) : readAt (aifOf head uni captions mbm trailer icons last) pos n = readAt mbm pos n := by
  have hlen : (head ++ leBytes 4 (trailer + captionSize captions)).length = 20 := by
    rw [List.length_append, hhead, length_leBytes]
  obtain ⟨x, rfl⟩ := Nat.exists_eq_add_of_le hpos
  rw [aifOf, readAt_append_left _ (by rw [length_frontOf h hhead]; exact hn), frontOf, ← hlen, readAt_append, hlen,
    readAt_readAt (by omega)]

theorem readAt_captions (h : IsMbm mbm trailer icons) (hhead : head.length = 16) (pos n : ℕ) :
    readAt (aifOf head uni captions mbm trailer icons last) (trailer + pos) n =
      readAt (captions.flatMap (captionBytes uni) ++ trailerOf captions mbm trailer icons last) pos n := by
  have hpos : trailer + pos = (frontOf head captions mbm trailer).length + pos := by rw [length_frontOf h hhead]
  rw [aifOf, hpos, readAt_append]

theorem readAt_trailer (h : IsMbm mbm trailer icons) (hhead : head.length = 16) (pos n : ℕ) :
    readAt (aifOf head uni captions mbm trailer icons last) (trailer + captionSize captions + pos) n =
      readAt (trailerOf captions mbm trailer icons last) pos n := by
  rw [Nat.add_assoc, readAt_captions h hhead, ← length_captions uni, readAt_append]

theorem readAt_pictures (h : IsMbm mbm trailer icons) (hhead : head.length = 16) (pos n : ℕ) :
    readAt (aifOf head uni captions mbm trailer icons last)
      (trailer + captionSize captions + (1 + 6 * captions.length) + pos) n = readAt (pictures mbm icons ++ last) pos n := by
  have hlen : (UInt8.ofNat (2 * captions.length) :: capTable trailer captions).length = 1 + 6 * captions.length := by
    rw [List.length_cons, length_capTable, Nat.add_comm]
  rw [Nat.add_assoc _ _ pos, readAt_trailer h hhead, trailerOf, ← hlen, readAt_append]

theorem wordAt_part {file : Bytes} {pos n : ℕ} (h : readAt file pos 4 = leBytes 4 n) (hn : n < 4294967296) :
    wordAt file pos = n := by
  rw [wordAt, h]
  exact ofLE_leBytes_of_lt hn

/-- **A caption** is found through its entry. -/
theorem caption_found (h : IsMbm mbm trailer icons) (hhead : head.length = 16)
    (hfits : trailer + captionSize captions < 4294967296) {k : ℕ} {c : Caption} (hk : captions[k]? = some c)
    (hc : c.text.length ≤ 63) :
    readAt (aifOf head uni captions mbm trailer icons last) (trailer + captionSize captions + (5 + 6 * k)) 2 = [c.lang, 0] ∧
    ∃ b : UInt8, readAt (aifOf head uni captions mbm trailer icons last)
        (wordAt (aifOf head uni captions mbm trailer icons last) (trailer + captionSize captions + (1 + 6 * k)))
        (1 + c.text.length) = b :: c.text ∧ b.toNat = 4 * c.text.length + if uni then 0 else 2 := by
  obtain ⟨before, behind, hsplit, hlen⟩ := exists_split hk
  have hsize : captionSize captions = captionSize before + (c.text.length + 1 + captionSize behind) := by
    rw [hsplit, captionSize_append]
    rfl
  have htrailer : trailerOf captions mbm trailer icons last =
      (UInt8.ofNat (2 * captions.length) :: capTable trailer before) ++ (leBytes 4 (trailer + captionSize before) ++
        ([c.lang, 0] ++ (capTable (trailer + captionSize before + (c.text.length + 1)) behind ++ (pictures mbm icons ++ last)))) := by
    rw [trailerOf]
    nth_rewrite 2 [hsplit]
    rw [capTable_append, capTable_cons]
    simp only [List.append_assoc, List.cons_append]
  have hfront : (UInt8.ofNat (2 * captions.length) :: capTable trailer before).length = 1 + 6 * k := by
    rw [List.length_cons, length_capTable, hlen, Nat.add_comm]
  have hword : wordAt (aifOf head uni captions mbm trailer icons last) (trailer + captionSize captions + (1 + 6 * k)) =
      trailer + captionSize before := by
    refine wordAt_part ?_ (by omega)
    rw [readAt_trailer h hhead, htrailer]
    exact readAt_part _ hfront (length_leBytes 4 _)
  refine ⟨?_, UInt8.ofNat (c.text.length * 4 + if uni then 0 else 2), ?_, ?_⟩
  · rw [readAt_trailer h hhead, htrailer, ← List.append_assoc]
    refine readAt_part _ ?_ rfl
    rw [List.length_append, hfront, length_leBytes]
    omega
  · rw [hword, readAt_captions h hhead]
    nth_rewrite 1 [hsplit]
    rw [List.flatMap_append, List.flatMap_cons, List.append_assoc, List.append_assoc]
    exact readAt_part _ (length_captions uni before) (Nat.add_comm ..)
  · rw [Nat.mul_comm]
    refine UInt8.toNat_ofNat_of_lt' ?_
    rw [UInt8.size]
    split <;> omega

/-- **An icon** is found through its entry. -/
theorem icon_found (h : IsMbm mbm trailer icons) (hhead : head.length = 16) {k : ℕ} {p : UInt32 × UInt32}
    (hk : icons[k]? = some p) (hwidth : widthAt mbm p.1 < 65536) :
    wordAt (aifOf head uni captions mbm trailer icons last)
        (trailer + captionSize captions + (1 + 6 * captions.length) + (1 + 6 * k)) = p.1.toNat ∧
    ofLE (readAt (aifOf head uni captions mbm trailer icons last)
        (trailer + captionSize captions + (1 + 6 * captions.length) + (5 + 6 * k)) 2) = widthAt mbm p.1 ∧
    readAt (aifOf head uni captions mbm trailer icons last) p.1.toNat BITMAPHEADER = readAt mbm p.1.toNat BITMAPHEADER := by
  obtain ⟨before, behind, hsplit, hlen⟩ := exists_split hk
  have hpics : pictures mbm icons ++ last = (UInt8.ofNat (2 * icons.length) :: before.flatMap (iconEntry mbm)) ++
      (leBytes 4 p.1.toNat ++ (leBytes 2 (widthAt mbm p.1) ++ (behind.flatMap (iconEntry mbm) ++ last))) := by
    rw [pictures]
    nth_rewrite 2 [hsplit]
    rw [List.flatMap_append, List.flatMap_cons, iconEntry, PutLong_eq]
    simp only [List.append_assoc, List.cons_append]
  have hfront : (UInt8.ofNat (2 * icons.length) :: before.flatMap (iconEntry mbm)).length = 1 + 6 * k := by
    rw [List.length_cons, length_flatMap_const before (length_iconEntry mbm), hlen, Nat.add_comm]
  have hin := h.inside p (List.mem_of_getElem? hk)
  refine ⟨?_, ?_, readAt_bitmaps h hhead hin.1 hin.2⟩
  · refine wordAt_part ?_ p.1.toNat_lt
    rw [readAt_pictures h hhead, hpics]
    exact readAt_part _ hfront (length_leBytes 4 _)
  · rw [readAt_pictures h hhead, hpics, ← List.append_assoc,
      readAt_part _ (by rw [List.length_append, hfront, length_leBytes]; omega) (length_leBytes 2 _)]
    exact ofLE_leBytes_of_lt hwidth

/-- **The AIF is well-formed** when its counts fit a byte and its widths fit two. -/
theorem wellFormed_aifOf (h : IsMbm mbm trailer icons) (hhead : head.length = 16) (hlast : last.length = 16)
    (hcaps : captions.length ≤ 127) (htext : ∀ c ∈ captions, c.text.length ≤ 63) (hicons : icons.length ≤ 127)
    (hwidth : ∀ p ∈ icons, widthAt mbm p.1 < 65536) :
    WellFormed uni captions mbm icons (aifOf head uni captions mbm trailer icons last) (trailer + captionSize captions) := by
  have hle := h.table_le
  have hints := h.ints
  have hsize := captionSize_le htext
  have hfits : trailer + captionSize captions < 4294967296 := by omega
  refine ⟨?_, ?_, ?_, ?_, ?_, ?_⟩
  · refine wordAt_part ?_ hfits
    rw [aifOf, frontOf, List.append_assoc, List.append_assoc]
    exact readAt_part _ hhead (length_leBytes 4 _)
  · rw [aifOf, List.length_append, length_frontOf h hhead, List.length_append, length_captions, trailerOf, pictures,
      List.length_append, List.length_cons, length_capTable, List.length_append, List.length_cons,
      length_flatMap_const icons (length_iconEntry mbm), hlast]
    omega
  · refine ⟨_, ?_, UInt8.toNat_ofNat_of_lt' (by omega : 2 * captions.length < 256)⟩
    exact readAt_trailer h hhead 0 1
  · intro k c hk
    exact caption_found h hhead hfits hk (htext c (List.mem_of_getElem? hk))
  · refine ⟨_, ?_, UInt8.toNat_ofNat_of_lt' (by omega : 2 * icons.length < 256)⟩
    exact readAt_pictures h hhead 0 1
  · intro k p hk
    exact icon_found h hhead hk (hwidth p (List.mem_of_getElem? hk))

end

/-! ### All runs -/

/-- The call ends with a message instead of an AIF. -/
def Refused (result : Outcome Bytes) : Prop := ∃ ret, result = .error (.exits ret)

/-- **When the AIF is well-formed.**  A description that is not refused gives a well-formed AIF, and no write outside
the arrays, just when the counts of the trailer fit a byte and every width fits two. -/
theorem writeAif_wellFormed_iff {readFile : Bytes → Option Bytes} {uni : Bool} {cuid description name mbm : Bytes} {trailer : ℕ}
    {icons : List (UInt32 × UInt32)} (hname : mbmNameOf description = some name) (hfile : readFile name = some mbm)
    (hmbm : IsMbm mbm trailer icons) (hne : icons ≠ []) (hok : ¬ Refused (writeAif readFile uni cuid description)) :
    (∃ aif offset, writeAif readFile uni cuid description = .ok aif ∧
        WellFormed uni (captionsOf description) mbm icons aif offset) ↔
      (captionsOf description).length ≤ 127 ∧ icons.length ≤ 127 ∧ ∀ p ∈ icons, widthAt mbm p.1 < 65536 := by
  constructor
  · rintro ⟨aif, offset, -, hwf⟩
    refine ⟨?_, ?_, ?_⟩
    · obtain ⟨b, -, hb⟩ := hwf.captionCount
      have hlt := b.toNat_lt
      omega
    · obtain ⟨b, -, hb⟩ := hwf.iconCount
      have hlt := b.toNat_lt
      omega
    · intro p hp
      obtain ⟨k, hk⟩ := List.mem_iff_getElem?.mp hp
      obtain ⟨-, hwidth, -⟩ := hwf.icon k p hk
      rw [← hwidth]
      exact ofLE_take_lt 2 _
  · rintro ⟨hcaps, hicons, hwidth⟩
    rcases readLines_done (fgetsChunks 1024 description) noVars with ⟨v, hlines, hread⟩ | ⟨e, hlines, hstop⟩
    · have hv : v.caps = captionsOf description := by rw [hread.caps]; rfl
      have hrd : v.rd = captionSize v.caps := by rw [hread.rd, hread.caps]; exact Nat.zero_add _
      have htext : ∀ c ∈ v.caps, c.text.length ≤ 63 := by rw [hv]; exact hread.text
      have hmbmfile : v.mbmfile = some name := by
        rw [hread.mbmfile]
        exact (Option.or_none ..).trans hname
      have hrun : writeAif readFile uni cuid description = .error (.exits 0) ∨ ∃ head : Bytes, head.length = 16 ∧
          writeAif readFile uni cuid description = .ok (aifOf head uni v.caps mbm trailer icons (lastWords v)) := by
        rw [writeAif, hlines, outcome_ok_bind]
        dsimp only
        split
        · exact .inl rfl
        · refine .inr ⟨PutLong 0x10000037 ++ PutLong (if uni then 0x10003a38 else 0x1000006a) ++ PutLong (toWord (strtol cuid)) ++
            PutLong (uidcsum [0x10000037, if uni then 0x10003a38 else 0x1000006a, toWord (strtol cuid)]), rfl, ?_⟩
          rw [hmbmfile]
          dsimp only
          rw [hfile]
          dsimp only
          rw [writeMbm_eq uni v hmbm hne, outcome_ok_bind, hrd]
          simp only [aifOf, frontOf, trailerOf, List.append_assoc, List.cons_append]
      rcases hrun with hrefused | ⟨head, hhead, hrun⟩
      · exact absurd ⟨0, hrefused⟩ hok
      · refine ⟨_, trailer + captionSize v.caps, hrun, ?_⟩
        rw [← hv]
        exact wellFormed_aifOf hmbm hhead rfl (by rw [hv]; exact hcaps) htext hicons hwidth
    · have hrun : writeAif readFile uni cuid description = .error e := by rw [writeAif, hlines, outcome_error_bind]
      rcases hstop with rfl | hmany
      · exact absurd ⟨1, hrun⟩ hok
      · rw [MAXCAPS] at hmany
        have hcount : noVars.caps.length + ((fgetsChunks 1024 description).filterMap captionOf).length =
          (captionsOf description).length := Nat.zero_add _
        omega

/-- A bitmap file of one icon, which is its own mask. -/
def oneIcon : Bytes :=
  PutLong 0x10000037 ++ PutLong 0x10000042 ++ PutLong 0 ++ PutLong 0 ++ PutLong 60 ++ PutLong 40 ++ PutLong 40 ++ PutLong 24 ++
    List.replicate 28 0 ++ PutLong 2 ++ PutLong 20 ++ PutLong 20

def iconFile (name : Bytes) : Option Bytes := if name = chars "a.mbm" then some oneIcon else none

theorem oneIcon_isMbm : IsMbm oneIcon 60 [(20, 20)] :=
  ⟨by decide, by decide, by decide, by decide, by decide, List.forall_mem_singleton.mpr (by decide)⟩

/-- A description with a number of captions. -/
def manyCaptions (n : ℕ) : Bytes := chars "mbmfile=a.mbm\n" ++ (List.replicate n (chars "ELangEnglish=Demo\n")).flatten

/-- The caption behind the last one there is room for is written outside the arrays. -/
theorem manyCaptions_outside :
    ¬ Refused (writeAif iconFile false (chars "0x10001234") (manyCaptions 129)) ∧
      mbmNameOf (manyCaptions 129) = some (chars "a.mbm") ∧ IsMbm oneIcon 60 [(20, 20)] ∧
      ¬ ∃ aif offset, writeAif iconFile false (chars "0x10001234") (manyCaptions 129) = .ok aif ∧
        WellFormed false (captionsOf (manyCaptions 129)) oneIcon [(20, 20)] aif offset := by
  have hlines : readLines (fgetsChunks 1024 (manyCaptions 129)) noVars = .error .undefined := by decide +kernel
  have hrun : writeAif iconFile false (chars "0x10001234") (manyCaptions 129) = .error .undefined := by
    rw [writeAif, hlines, outcome_error_bind]
  refine ⟨?_, by decide +kernel, oneIcon_isMbm, ?_⟩
  · rintro ⟨ret, hret⟩
    rw [hrun] at hret
    cases hret
  · rintro ⟨aif, offset, hok, -⟩
    rw [hrun] at hok
    cases hok

theorem oneCaption_wellFormed_iff :
    (∃ aif offset, writeAif iconFile false (chars "0x10001234") (manyCaptions 1) = .ok aif ∧
        WellFormed false (captionsOf (manyCaptions 1)) oneIcon [(20, 20)] aif offset) ↔
      (captionsOf (manyCaptions 1)).length ≤ 127 ∧ [((20 : UInt32), (20 : UInt32))].length ≤ 127 ∧
        ∀ p ∈ [((20 : UInt32), (20 : UInt32))], widthAt oneIcon p.1 < 65536 := by
  have hname : mbmNameOf (manyCaptions 1) = some (chars "a.mbm") := by decide +kernel
  refine writeAif_wellFormed_iff hname rfl oneIcon_isMbm (List.cons_ne_nil _ _) ?_
  rintro ⟨ret, hret⟩
  have hok : (writeAif iconFile false (chars "0x10001234") (manyCaptions 1)).isOk = true := by decide +kernel
  rw [hret] at hok
  cases hok

end GnuPoc.Genaif
