import GnuPoc.Deflate.DeflateCodes
import GnuPoc.Deflate.MetaRoundTrip

/-!
# GnuPoc.Deflate.DeflateRoundTrip — what is compressed is uncompressed (`deflate.cpp`, `inflate.cpp`, `compress.cpp`)

Every code that is written has been counted, so it has a length in the table, and the table goes before the data.  The
inflater reads the table, builds the trees, and gives the bytes again, in whichever pieces they are read.
-/

namespace GnuPoc.Deflate

open GnuPoc.Lib

/-! ### The table in front -/

theorem metaWrite_fits (symbol : ℕ) : (metaWrite symbol).Fits := by
  have hall : ∀ symbol < 29, (metaWrite symbol).Fits := by decide +kernel
  by_cases h : symbol < 29
  · exact hall symbol h
  · have hzero : metaWrite symbol = .HuffmanL 0 := by
      rw [metaWrite, List.getD_eq_default _ _ (not_lt.mp h)]
    rw [hzero]
    decide +kernel

theorem bits_metaWrite (symbol : ℕ) : (metaWrite symbol).bits = metaCode symbol :=
  (codeWord_eq_bitString (metaWrite_fits symbol)).symm

/-- The calls of a run write its bits. -/
theorem runLengthCode_spec (aLength : ℕ) :
    bitsOf (runLengthCode (fun symbol => [metaWrite symbol]) aLength) = EncodeRunLengthL aLength ∧
      ∀ w ∈ runLengthCode (fun symbol => [metaWrite symbol]) aLength, w.Fits := by
  rw [EncodeRunLengthL]
  induction aLength using Nat.strongRecOn with
  | _ aLength ih =>
    unfold runLengthCode
    by_cases hpos : 0 < aLength
    · obtain ⟨hbits, hfits⟩ := ih ((aLength - 1) / 2) (by omega)
      rw [if_pos hpos, if_pos hpos, bitsOf_append, hbits]
      refine ⟨?_, fun w hw => ?_⟩
      · rw [bitsOf_cons, bits_metaWrite, bitsOf, List.flatMap_nil, List.append_nil]
      · rcases List.mem_append.mp hw with hw | hw
        · exact hfits w hw
        · obtain rfl := List.mem_singleton.mp hw
          exact metaWrite_fits _
    · rw [if_neg hpos, if_neg hpos]
      exact ⟨rfl, fun w hw => absurd hw List.not_mem_nil⟩

/-- The calls of `ExternalizeL` write its bits. -/
theorem externalizeLoop_writes {aHuffman : Words} {list : List UInt8} {last : UInt32} {rl : ℕ} {bits : List Bool}
    (h : externalizeLoop metaCode aHuffman list last rl = .ok bits) :
    ∃ writes, externalizeLoop (fun symbol => [metaWrite symbol]) aHuffman list last rl = .ok writes ∧
      bitsOf writes = bits ∧ ∀ w ∈ writes, w.Fits := by
  induction aHuffman generalizing list last rl bits with
  | nil =>
    obtain rfl := Except.ok.inj h
    exact ⟨_, rfl, (runLengthCode_spec rl).1, (runLengthCode_spec rl).2⟩
  | cons c aHuffman ih =>
    rw [externalizeLoop] at h ⊢
    by_cases hsame : c = last
    · rw [if_pos hsame] at h ⊢
      exact ih h
    · rw [if_neg hsame] at h ⊢
      obtain ⟨j, hj, h⟩ := bind_eq_ok.mp h
      obtain ⟨rest, hrest, h⟩ := bind_eq_ok.mp h
      obtain rfl := Except.ok.inj h
      obtain ⟨writes, hwrites, rfl, hfits⟩ := ih hrest
      obtain ⟨hrun, hrunFits⟩ := runLengthCode_spec rl
      refine ⟨_, by rw [hj, ok_bind, hwrites]; rfl, ?_, fun w hw => ?_⟩
      · rw [bitsOf_append, List.singleton_append, bitsOf_cons, hrun, bits_metaWrite]
        rfl
      · rcases List.mem_append.mp hw with hw | hw
        · exact hrunFits w hw
        · rcases List.mem_cons.mp hw with rfl | hw
          · exact metaWrite_fits _
          · exact hfits w hw

/-- A table is written, and restored from its bits. -/
theorem externalizeWrites_read {aHuffman : Words} (hshort : ∀ len ∈ aHuffman, len.toNat ≤ KMaxCodeLength) :
    ∃ table, externalizeWrites aHuffman = .ok table ∧ (∀ w ∈ table, w.Fits) ∧
      ∀ rest, InternalizeL (bitsOf table ++ rest) aHuffman.length = (aHuffman, .finishes rest) := by
  obtain ⟨others, hlist⟩ : ∃ others, metaList = 0 :: others := ⟨_, rfl⟩
  have hothers : Others 0 others := by rw [Others, hlist]
  obtain ⟨bits, hbits, hread⟩ := externalizeLoop_spec aHuffman hshort (a := 0) (b := 0) hothers 0
  obtain ⟨writes, hwrites, rfl, hfits⟩ := externalizeLoop_writes hbits
  refine ⟨writes, by rw [externalizeWrites, hlist]; exact hwrites, hfits, fun rest => ?_⟩
  have hall := hread [] rest
  rw [List.length_nil, Nat.zero_add] at hall
  rw [InternalizeL, hlist]
  exact hall

/-! ### Counting -/

/-- How often the codes below `n` occur. -/
def countsOf (n : ℕ) (codes : List ℕ) : Words := (List.range n).map fun c => UInt32.ofNat (codes.count c)

@[simp] theorem length_countsOf (n : ℕ) (codes : List ℕ) : (countsOf n codes).length = n := by simp [countsOf]

theorem countsOf_nil (n : ℕ) : countsOf n [] = List.replicate n 0 := by
  rw [countsOf]
  simp only [List.count_nil]
  rw [List.map_const', List.length_range]
  rfl

theorem modifyAt_countsOf {n c : ℕ} (codes : List ℕ) (h : c < n) :
    modifyAt (countsOf n codes) c (· + 1) = .ok (countsOf n (codes ++ [c])) := by
  rw [modifyAt_nat (by rwa [length_countsOf]), countsOf, modify_map_range, countsOf]
  congr 1
  apply List.map_congr_left
  intro k _
  rw [List.count_append]
  by_cases hk : k = c
  · subst hk
    rw [if_pos rfl, List.count_singleton_self, UInt32.ofNat_add]
    rfl
  · have hnone : List.count k [c] = 0 := List.count_eq_zero.mpr (by simpa using hk)
    rw [if_neg hk, hnone, Nat.add_zero]

/-- The statistics count each code. -/
theorem foldlM_TDeflateStats {emits : List Emit} (hlit : ∀ c ∈ litLens emits, c < ELitLens)
    (hoff : ∀ c ∈ offsets emits, c < EDistances) (codes codes' : List ℕ) :
    emits.foldlM TDeflateStats ⟨countsOf ELitLens codes, countsOf EDistances codes'⟩ =
      .ok ⟨countsOf ELitLens (codes ++ litLens emits), countsOf EDistances (codes' ++ offsets emits)⟩ := by
  induction emits generalizing codes codes' with
  | nil =>
    rw [litLens, offsets, List.filterMap_nil, List.filterMap_nil, List.append_nil, List.append_nil]
    rfl
  | cons emit emits ih =>
    rw [List.foldlM_cons]
    cases emit with
    | LitLenL c =>
      have hc : c < ELitLens := hlit c List.mem_cons_self
      rw [TDeflateStats, modifyAt_countsOf codes hc]
      refine (ih (fun c hc => hlit c (List.mem_cons_of_mem _ hc)) hoff (codes ++ [c]) codes').trans ?_
      rw [List.append_assoc]
      rfl
    | OffsetL c =>
      have hc : c < EDistances := hoff c List.mem_cons_self
      rw [TDeflateStats, modifyAt_countsOf codes' hc]
      refine (ih hlit (fun c hc => hoff c (List.mem_cons_of_mem _ hc)) codes (codes' ++ [c])).trans ?_
      rw [List.append_assoc]
      rfl
    | ExtraL aLen aBits => exact ih hlit hoff codes codes'

theorem countsOf_ne_zero {n c : ℕ} {codes : List ℕ} (hc : c ∈ codes) (hn : c < n) (hlen : codes.length < 2 ^ 32) :
    ∃ count, (countsOf n codes)[c]? = some count ∧ count ≠ 0 := by
  refine ⟨UInt32.ofNat (codes.count c), getElem?_map_range _ hn, fun hzero => ?_⟩
  have hpos := List.count_pos_iff.mpr hc
  have hle := List.count_le_length (a := c) (l := codes)
  have hnat := congrArg UInt32.toNat hzero
  rw [UInt32.toNat_ofNat_of_lt' (lt_of_le_of_lt hle hlen), UInt32.toNat_zero] at hnat
  omega

/-- All codes of sound segments lie inside of the tables. -/
theorem codes_of_sound {segments : List Segment} {out : List UInt8} (h : Sound out segments) :
    (∀ c ∈ litLens (emitted segments), c < ELitLens) ∧ (∀ c ∈ offsets (emitted segments), c < EDistances) ∧
      (litLens (emitted segments)).length = segments.length + 1 ∧
      (offsets (emitted segments)).length ≤ segments.length := by
  induction segments generalizing out with
  | nil => exact ⟨by decide, by decide, rfl, le_rfl⟩
  | cons segment segments ih =>
    have hsplit : emitted (segment :: segments) = segment.emits ++ emitted segments := by
      rw [emitted, List.flatMap_cons, List.append_assoc, emitted]
    obtain ⟨hlit, hoff, hlitLen, hoffLen⟩ := ih h.2
    rw [hsplit, litLens_append, offsets_append]
    have hfirst : (∃ c < ELitLens, litLens segment.emits = [c]) ∧ ∀ c ∈ offsets segment.emits, c < EDistances ∧
        (offsets segment.emits).length = 1 := by
      cases segment with
      | literal byte =>
        exact ⟨⟨byte.toNat, lt_trans byte.toNat_lt (by decide), rfl⟩, fun c hc => absurd hc List.not_mem_nil⟩
      | copy n d =>
        obtain ⟨hleast, hmost, hpos, hwindow, -⟩ := h.1
        have hmost' : n ≤ 258 := hmost
        have hwindow' : d ≤ 4096 := hwindow
        have hmin : KDeflateMinLength = 3 := rfl
        obtain ⟨hlitCodes, hoffCodes⟩ := codes_SegmentL n d
        have hn := (codeOf_lt (m := 8) (by decide) (show n - KDeflateMinLength < 2 ^ 8 by omega)).2
        have hd := (codeOf_lt (m := 12) (by decide) (show d - 1 < 2 ^ 12 by omega)).2
        rw [Segment.emits, hlitCodes, hoffCodes]
        refine ⟨⟨_, ?_, rfl⟩, fun c hc => ⟨?_, rfl⟩⟩
        · have hlits : ELitLens = 28 + ELiterals + 1 := rfl
          omega
        · obtain rfl := List.mem_singleton.mp hc
          exact hd
    obtain ⟨⟨c, hc, hsingle⟩, hdist⟩ := hfirst
    refine ⟨fun c' hc' => ?_, fun c' hc' => ?_, ?_, ?_⟩
    · rw [hsingle] at hc'
      rcases List.mem_append.mp hc' with hmem | hmem
      · obtain rfl := List.mem_singleton.mp hmem
        exact hc
      · exact hlit c' hmem
    · exact (List.mem_append.mp hc').elim (fun hmem => (hdist c' hmem).1) (hoff c')
    · rw [hsingle, List.length_append, hlitLen, List.length_singleton, List.length_cons]
      omega
    · rw [List.length_append, List.length_cons]
      rcases hcodes : offsets segment.emits with _ | ⟨c', rest⟩
      · rw [List.length_nil]
        omega
      · have hone := (hdist c' (by rw [hcodes]; exact List.mem_cons_self)).2
        rw [hcodes] at hone
        omega

/-! ### The codes and the tree of a table -/

theorem code_lt {aHuffman : Words} {s : ℕ} {len : UInt32} (hs : aHuffman[s]? = some len) (hpos : 0 < len.toNat)
    (hle : len.toNat ≤ KMaxCodeLength) (htaken : firstCode (lengths aHuffman) KMaxCodeLength ≤ 2 ^ KMaxCodeLength) :
    2 * firstCode (lengths aHuffman) (len.toNat - 1) + ((lengths aHuffman).take s).count len.toNat < 2 ^ len.toNat := by
  obtain ⟨front, back, hleaves, -, hspace⟩ := exists_tableLeaf hs hpos hle
  have htotal := space_buckets (lengths aHuffman) (le_refl KMaxCodeLength)
  rw [← tableLeaves, hleaves, space_append, space_cons, hspace, Nat.sub_self, Nat.pow_zero, Nat.mul_one] at htotal
  have hroom := Nat.two_pow_pos (KMaxCodeLength - len.toNat)
  have hsplit : 2 ^ KMaxCodeLength = 2 ^ len.toNat * 2 ^ (KMaxCodeLength - len.toNat) := two_pow_split (by omega)
  rw [hsplit] at htaken
  refine lt_of_mul_lt_mul_right (a := 2 ^ (KMaxCodeLength - len.toNat)) ?_ (Nat.zero_le _)
  dsimp only at htotal
  omega

/-- Of a table for some counts, every code that has been counted is written so that it is read again. -/
theorem tableFor_reads {aFrequency aHuffman : Words} (h : Huffman.TableFor aFrequency aHuffman)
    (base : ℕ) (hcodes : aFrequency.length ≤ 285) (hbase : base ≤ 512) :
    ∃ codes tree, Encoding aHuffman = .ok codes ∧ Decoding aHuffman (UInt32.ofNat base) = .ok tree ∧
      ∀ c count, aFrequency[c]? = some count → count ≠ 0 → ReadsCode codes tree base c := by
  have hnonneg : ∀ word ∈ aHuffman, word.toNat < 2 ^ 31 := fun word hword =>
    lt_of_le_of_lt (h.short word hword) (by decide)
  obtain ⟨tree, hdecoding, -, htree⟩ := exists_codes h.valid hnonneg (by rw [h.length]; exact hcodes) hbase
  obtain ⟨codes, hencoding, htable⟩ := exists_encoding h.valid h.short
  refine ⟨codes, tree, hencoding, hdecoding, fun c count hcount hne => ?_⟩
  obtain ⟨len, hlen, hlenNe⟩ := h.occurs c count hcount hne
  have hpos : 0 < len.toNat := Nat.pos_of_ne_zero fun h0 => hlenNe (UInt32.toNat_inj.mp h0)
  have hle := h.short len (List.mem_of_getElem? hlen)
  have hfits := fits_codeEntry hle (code_lt hlen hpos hle (isValid_spec h.valid hnonneg).2.1)
  obtain ⟨-, hread⟩ := HuffmanL_codeWord h.valid hnonneg htree hlen hpos rfl
  refine ⟨_, htable c len hlen hlenNe, hfits, fun rest => ?_⟩
  have hbits := codeWord_eq_bitString hfits
  rw [Write.bits, ← hbits, hread, UInt32.ofNat_add]

/-- **The tables of `HuffmanL`.**  Whatever the frequencies, each symbol that occurs has a code that is read back, and the
table comes back from what is written of it. -/
theorem HuffmanL_table_read {memory : ℕ → Huffman.TNode} {aFrequency aHuffman : Words}
    (h : Huffman.HuffmanL memory aFrequency = .ok aHuffman) (hcodes : aFrequency.length ≤ 285) {base : ℕ} (hbase : base ≤ 512) :
    (∃ codes tree, Encoding aHuffman = .ok codes ∧ Decoding aHuffman (UInt32.ofNat base) = .ok tree ∧
      ∀ c count, aFrequency[c]? = some count → count ≠ 0 → ReadsCode codes tree base c) ∧
    ∃ table, externalizeWrites aHuffman = .ok table ∧
      ∀ rest, InternalizeL (bitsOf table ++ rest) aHuffman.length = (aHuffman, .finishes rest) := by
  have htable := Huffman.tableFor_of_HuffmanL h
  obtain ⟨table, hwrites, -, hread⟩ := externalizeWrites_read htable.short
  exact ⟨tableFor_reads htable base hcodes hbase, table, hwrites, hread⟩

theorem HuffmanL_table_read_sample :
    (∃ codes tree, Encoding [1, 0, 2, 2] = .ok codes ∧ Decoding [1, 0, 2, 2] (UInt32.ofNat 0) = .ok tree ∧
      ∀ c count, ([5, 0, 1, 3] : Words)[c]? = some count → count ≠ 0 → ReadsCode codes tree 0 c) ∧
    ∃ table, externalizeWrites [1, 0, 2, 2] = .ok table ∧
      ∀ rest, InternalizeL (bitsOf table ++ rest) 4 = ([1, 0, 2, 2], .finishes rest) :=
  @HuffmanL_table_read (fun _ => ⟨0, 0, 0⟩) [5, 0, 1, 3] _ (by decide +kernel) (by decide) _ (by decide)

/-! ### The whole stream -/

/-- What `DoDeflateL` has computed when it returns. -/
theorem DeflateL_cases {litLenMemory distanceMemory : ℕ → Huffman.TNode} {aBuf : List UInt8} (hlen : aBuf.length < 2 ^ 31)
    {writes : List Write} (h : Output.DeflateL litLenMemory distanceMemory aBuf = .ok writes) :
    ∃ segments iLitLen iDistance, DeflateL aBuf = .ok segments ∧
      Huffman.TableFor (countsOf ELitLens (litLens (emitted segments))) iLitLen ∧
      Huffman.TableFor (countsOf EDistances (offsets (emitted segments))) iDistance ∧
      ∃ table codes codes' data, externalizeWrites (iLitLen ++ iDistance) = .ok table ∧ Encoding iLitLen = .ok codes ∧
        Encoding iDistance = .ok codes' ∧ (emitted segments).mapM (TDeflater ⟨codes, codes'⟩) = .ok data ∧
        writes = table ++ data := by
  obtain ⟨segments, hsegments, h⟩ := bind_eq_ok.mp h
  rw [lift_eq_ok] at hsegments
  obtain ⟨hexpand, hsound⟩ := expand_DeflateL aBuf hlen hsegments
  obtain ⟨hlit, hoff, -, -⟩ := codes_of_sound hsound
  obtain ⟨aEncoding, hstats, h⟩ := bind_eq_ok.mp h
  have hcounted := foldlM_TDeflateStats hlit hoff [] []
  rw [countsOf_nil, countsOf_nil, List.nil_append, List.nil_append] at hcounted
  rw [lift_eq_ok, TEncoding.zero, hcounted] at hstats
  obtain rfl := Except.ok.inj hstats
  obtain ⟨iLitLen, hiLitLen, h⟩ := bind_eq_ok.mp h
  obtain ⟨iDistance, hiDistance, h⟩ := bind_eq_ok.mp h
  obtain ⟨table, htable, h⟩ := bind_eq_ok.mp h
  obtain ⟨codes, hcodes, h⟩ := bind_eq_ok.mp h
  obtain ⟨codes', hcodes', h⟩ := bind_eq_ok.mp h
  obtain ⟨data, hdata, h⟩ := bind_eq_ok.mp h
  rw [lift_eq_ok] at htable hcodes hcodes' hdata
  exact ⟨segments, iLitLen, iDistance, hsegments, Huffman.tableFor_of_HuffmanL hiLitLen,
    Huffman.tableFor_of_HuffmanL hiDistance, table, codes, codes', data, htable, hcodes, hcodes', hdata,
    (Except.ok.inj h).symm⟩

theorem InitL_ok {iLitLen iDistance litLenTree distanceTree : Words} {bits rest : List Bool}
    (hlit : iLitLen.length = ELitLens) (hdist : iDistance.length = EDistances)
    (hvalid : IsValid iLitLen = true) (hvalid' : IsValid iDistance = true)
    (hread : InternalizeL (bits ++ rest) (iLitLen ++ iDistance).length = (iLitLen ++ iDistance, .finishes rest))
    (htree : Decoding iLitLen 0 = .ok litLenTree)
    (htree' : Decoding iDistance (UInt32.ofNat KDeflateDistCodeBase) = .ok distanceTree) :
    CInflater.InitL (bits ++ rest) = .ok (litLenTree, distanceTree, rest) := by
  have hlength : (iLitLen ++ iDistance).length = KDeflationCodes := by
    rw [List.length_append, hlit, hdist]
    rfl
  rw [hlength] at hread
  rw [CInflater.InitL, hread]
  dsimp only
  rw [if_neg (by omega), List.take_left' hlit, List.drop_left' hlit, if_neg (by simp [hvalid, hvalid']), htree, htree']
  rfl

/-- An inflater over what `DeflateCompress` has written, whatever stands behind it, delivers the bytes. -/
theorem delivers_DeflateCompress {litLenMemory distanceMemory : ℕ → Huffman.TNode} (memory : ℕ → UInt8)
    {bytes compressed : List UInt8} (hlen : bytes.length < 2 ^ 31)
    (h : Output.DeflateCompress litLenMemory distanceMemory bytes = .ok compressed) (behind : List UInt8) :
    ∃ inflater, CInflater.NewLC memory (bitsOfBytes (compressed ++ behind)) = .ok inflater ∧ Delivers inflater bytes := by
  obtain ⟨writes, hwrites, h⟩ := bind_eq_ok.mp h
  obtain rfl := Except.ok.inj h
  obtain ⟨segments, iLitLen, iDistance, hsegments, hlitTable, hdistTable, table, codes, codes', data, htable, hcodes,
    hcodes', hdata, rfl⟩ := DeflateL_cases hlen hwrites
  obtain ⟨hexpand, hsound⟩ := expand_DeflateL bytes hlen hsegments
  obtain ⟨hlit, hoff, hlitLen, hoffLen⟩ := codes_of_sound hsound
  have hmany := hsound.length_le
  rw [hexpand, List.length_nil, Nat.zero_add] at hmany
  -- the codes and trees of both tables
  obtain ⟨litCodes, litTree, hlitCodes, hlitTree, hlitReads⟩ := tableFor_reads hlitTable 0
    (by rw [length_countsOf]; decide) (by decide)
  obtain ⟨distCodes, distTree, hdistCodes, hdistTree, hdistReads⟩ := tableFor_reads hdistTable KDeflateDistCodeBase
    (by rw [length_countsOf]; decide) (by decide)
  obtain rfl := Except.ok.inj (hcodes.symm.trans hlitCodes)
  obtain rfl := Except.ok.inj (hcodes'.symm.trans hdistCodes)
  obtain ⟨ws, hws, hwsFits, hcoded⟩ := coded_of_reads (e := ⟨codes, codes'⟩) hsound
    (fun c hc => by
      obtain ⟨count, hcount, hne⟩ := countsOf_ne_zero hc (hlit c hc) (by omega)
      exact hlitReads c count hcount hne)
    (fun c hc => by
      obtain ⟨count, hcount, hne⟩ := countsOf_ne_zero hc (hoff c hc) (by omega)
      exact hdistReads c count hcount hne)
  obtain rfl := Except.ok.inj (hws.symm.trans hdata)
  -- the table in front of them
  obtain ⟨table', hwrites, htableFits, hread⟩ := externalizeWrites_read fun len hmem =>
    (List.mem_append.mp hmem).elim (hlitTable.short len) (hdistTable.short len)
  obtain rfl := Except.ok.inj (htable.symm.trans hwrites)
  have hfits : ∀ w ∈ table ++ ws, w.Fits := fun w hw =>
    (List.mem_append.mp hw).elim (htableFits w) (hwsFits w)
  obtain ⟨padding, -, hproduced⟩ := bitsOfBytes_produced Output.KBufSize (fun _ => Output.KBufSize) hfits 1
  have hstream : bitsOfBytes (produced (.new Output.KBufSize fun _ => Output.KBufSize) (table ++ ws) 1 ++ behind) =
      bitsOf table ++ (bitsOf ws ++ (padding ++ bitsOfBytes behind)) := by
    have hall : (table ++ ws).flatMap (fun w => bitString w.length w.value) = bitsOf table ++ bitsOf ws :=
      bitsOf_append table ws
    rw [bitsOfBytes_append, hproduced, hall]
    simp only [List.append_assoc]
  have hinit := InitL_ok (by rw [hlitTable.length, length_countsOf]) (by rw [hdistTable.length, length_countsOf])
    hlitTable.valid hdistTable.valid (hread (bitsOf ws ++ (padding ++ bitsOfBytes behind))) hlitTree hdistTree
  have hdelivers := start_delivers memory (hcoded (padding ++ bitsOfBytes behind)) hsound
  rw [hexpand] at hdelivers
  refine ⟨_, ?_, hdelivers⟩
  rw [hstream, CInflater.NewLC, hinit]
  rfl

/-- However the bytes are read and skipped, the calls give those that were compressed, one after the other. -/
theorem reads_DeflateCompress (litLenMemory distanceMemory : ℕ → Huffman.TNode) (memory : ℕ → UInt8) (bytes : List UInt8)
    (hlen : bytes.length < 2 ^ 31) {compressed : List UInt8}
    (h : Output.DeflateCompress litLenMemory distanceMemory bytes = .ok compressed) (behind : List UInt8)
    (calls : List (Bool × ℕ)) :
    ∃ inflater c, CInflater.NewLC memory (bitsOfBytes (compressed ++ behind)) = .ok inflater ∧
      reads calls inflater = .ok (slices calls bytes, c) := by
  obtain ⟨inflater, hnew, hdelivers⟩ := delivers_DeflateCompress memory hlen h behind
  obtain ⟨c, hreads⟩ := reads_ok hdelivers calls
  exact ⟨inflater, c, hnew, hreads⟩

/-- Three bytes that come three times, and two more. -/
theorem reads_DeflateCompress_sample :
    ∃ inflater c, CInflater.NewLC (fun _ => 0) (bitsOfBytes [46, 82, 73, 6, 33, 36, 145, 96, 10, 98, 64, 142, 92, 23, 7]) =
        .ok inflater ∧
      reads [(true, 5), (false, 3), (true, 9), (true, 9)] inflater =
        .ok ([([97, 98, 99, 97, 98], 5), ([], 3), ([99, 1, 2], 3), ([], 0)], c) := by
  have hcompressed : Output.DeflateCompress (fun _ => ⟨0, 0, 0⟩) (fun _ => ⟨0, 0, 0⟩)
      [97, 98, 99, 97, 98, 99, 97, 98, 99, 1, 2] = .ok [46, 82, 73, 6, 33, 36, 145, 96, 10, 98, 64, 142, 92, 23] := by
    decide +kernel
  exact reads_DeflateCompress (fun _ => ⟨0, 0, 0⟩) (fun _ => ⟨0, 0, 0⟩) (fun _ => 0)
    [97, 98, 99, 97, 98, 99, 97, 98, 99, 1, 2] (by decide) hcompressed [7] [(true, 5), (false, 3), (true, 9), (true, 9)]

end GnuPoc.Deflate
