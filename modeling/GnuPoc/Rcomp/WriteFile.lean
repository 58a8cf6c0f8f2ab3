import GnuPoc.Rcomp.Patch

/-!
# GnuPoc.Rcomp.WriteFile — what stands in a resource file

The resources are followed one after the other: what each writes, and what the links make of it in the end.
The header and the index then stand around them, and every offset, bit and id is where it belongs.
-/

namespace GnuPoc.Rcomp

open GnuPoc.Lib

/-! ### Items -/

/-- What a link is in the end: the low bytes of the id. -/
def linkBytes (names : List (String × UInt64)) (name : String) (type : DataType) : Bytes :=
  (⟨type, ((FindId names name).getD 0).toNat⟩ : NumericValue).iData

/-- The pieces of an item, with the id in a link. -/
def Item.pieces (names : List (String × UInt64)) : Item → List Piece
  | .StreamIn bytes => [.data bytes]
  | .MakePlaceHolder n => [.data (placeHolder n)]
  | .StartOfBlockWithSizePrefix type => [.start type]
  | .EndOfBlockWithSizePrefix => [.stop]
  | .StreamOutCompressingIfReducesSize words => text words
  | .WordLink name => [.data (linkBytes names name .L_WORD)]
  | .LongLink name => [.data (linkBytes names name .L_LONG)]

/-- The uncompressed bytes of a resource. -/
def uncompressed (names : List (String × UInt64)) (items : List Item) : Bytes :=
  layout 0 (items.flatMap (Item.pieces names))

/-- The bytes of link number `k`. -/
def siteBytes (names : List (String × UInt64)) (links : List (String × DataType)) (k : ℕ) : Bytes :=
  ((links[k]?).map fun link => linkBytes names link.1 link.2).getD []

theorem callPieces_numbered (names : List (String × UInt64)) (sites : ℕ → DataType → Bytes) (items : List Item) :
    ∀ j, (∀ i name type, (linksOf items)[i]? = some (name, type) → sites (j + i) type = linkBytes names name type) →
    callPieces sites (numbered j items) = items.flatMap (Item.pieces names) := by
  induction items with
  | nil => exact fun _ _ => rfl
  | cons item items ih =>
    intro j h
    have hlink : ∀ name type, item.link? = some (name, type) → sites j type = linkBytes names name type ∧
        callPieces sites (numbered (j + 1) items) = items.flatMap (Item.pieces names) := by
      intro name type hitem
      have hcons : linksOf (item :: items) = (name, type) :: linksOf items := List.filterMap_cons_some hitem
      rw [hcons] at h
      refine ⟨h 0 name type rfl, ih (j + 1) fun i name' type' hi => ?_⟩
      rw [Nat.add_assoc, Nat.add_comm 1 i]
      exact h (i + 1) name' type' hi
    have hother : item.link? = none → callPieces sites (numbered j items) = items.flatMap (Item.pieces names) := by
      intro hitem
      have hcons : linksOf (item :: items) = linksOf items := List.filterMap_cons_none hitem
      rw [hcons] at h
      exact ih j h
    rw [List.flatMap_cons]
    cases item with
    | WordLink name =>
      obtain ⟨hsite, hrest⟩ := hlink name .L_WORD rfl
      show .data (sites j .L_WORD) :: callPieces sites (numbered (j + 1) items) = _
      rw [hsite, hrest]
      rfl
    | LongLink name =>
      obtain ⟨hsite, hrest⟩ := hlink name .L_LONG rfl
      show .data (sites j .L_LONG) :: callPieces sites (numbered (j + 1) items) = _
      rw [hsite, hrest]
      rfl
    | StreamIn bytes => exact congrArg (_ ++ ·) (hother rfl)
    | MakePlaceHolder n => exact congrArg (_ ++ ·) (hother rfl)
    | StartOfBlockWithSizePrefix type => exact congrArg (_ ++ ·) (hother rfl)
    | EndOfBlockWithSizePrefix => exact congrArg (_ ++ ·) (hother rfl)
    | StreamOutCompressingIfReducesSize words => exact congrArg (_ ++ ·) (hother rfl)

theorem keys_numbered (items : List Item) : ∀ j,
    (numbered j items).flatMap Call.keys = List.range' j (linksOf items).length := by
  induction items with
  | nil => exact fun _ => rfl
  | cons item items ih =>
    intro j
    cases item with
    | WordLink name => exact congrArg (j :: ·) (ih (j + 1))
    | LongLink name => exact congrArg (j :: ·) (ih (j + 1))
    | StreamIn bytes => exact ih j
    | MakePlaceHolder n => exact ih j
    | StartOfBlockWithSizePrefix type => exact ih j
    | EndOfBlockWithSizePrefix => exact ih j
    | StreamOutCompressingIfReducesSize words => exact ih j

theorem link_numbered {k : ℕ} {type : DataType} (items : List Item) : ∀ j, Call.link k type ∈ numbered j items →
    ∃ i name, k = j + i ∧ (linksOf items)[i]? = some (name, type) := by
  induction items with
  | nil => exact fun _ h => absurd h List.not_mem_nil
  | cons item items ih =>
    intro j h
    have hlink : ∀ name t, linksOf (item :: items) = (name, t) :: linksOf items →
        Call.link k type ∈ Call.link j t :: numbered (j + 1) items →
        ∃ i name, k = j + i ∧ (linksOf (item :: items))[i]? = some (name, type) := by
      intro name t hcons hmem
      rw [hcons]
      rcases List.mem_cons.mp hmem with heq | hmem
      · cases heq
        exact ⟨0, name, rfl, rfl⟩
      · obtain ⟨i, name', hk, hi⟩ := ih (j + 1) hmem
        exact ⟨i + 1, name', by omega, hi⟩
    have hother : ∀ c, (∀ k t, c ≠ Call.link k t) → linksOf (item :: items) = linksOf items →
        Call.link k type ∈ c :: numbered j items →
        ∃ i name, k = j + i ∧ (linksOf (item :: items))[i]? = some (name, type) := by
      intro c hc hcons hmem
      rw [hcons]
      rcases List.mem_cons.mp hmem with heq | hmem
      · exact absurd heq.symm (hc k type)
      · exact ih j hmem
    cases item with
    | WordLink name => exact hlink name .L_WORD rfl h
    | LongLink name => exact hlink name .L_LONG rfl h
    | StreamIn bytes => exact hother (.StreamIn bytes) (fun _ _ h => Call.noConfusion h) rfl h
    | MakePlaceHolder n => exact hother (.MakePlaceHolder n) (fun _ _ h => Call.noConfusion h) rfl h
    | StartOfBlockWithSizePrefix type => exact hother (.StartOfBlockWithSizePrefix type) (fun _ _ h => Call.noConfusion h) rfl h
    | EndOfBlockWithSizePrefix => exact hother .EndOfBlockWithSizePrefix (fun _ _ h => Call.noConfusion h) rfl h
    | StreamOutCompressingIfReducesSize words => exact hother (.StreamOutCompressingIfReducesSize words) (fun _ _ h => Call.noConfusion h) rfl h

/-! ### A resource -/

/-- What a resource has written behind `file`, and what the links make of it. -/
structure Placed (expander : Bytes → List UInt16) (symbianV6hack : Bool) (names : List (String × UInt64))
    (items : List Item) (file : Bytes) (out : StreamedOut) (data final : Bytes) : Prop where
  aStream : out.aStream = .atEnd (file ++ data)
  length : final.length = data.length
  aSizeWhenUncompressed : out.aSizeWhenUncompressed = (uncompressed names items).length
  compressed : out.containsCompressedUnicode = true → expand expander final = some (uncompressed names items)
  plain : out.containsCompressedUnicode = false → final = uncompressed names items
  hack : symbianV6hack = true → out.containsCompressedUnicode = false
  keys : out.positions.map Prod.fst = List.range (linksOf items).length
  overwritten : ∀ before behind : Bytes, before.length = file.length →
    overwritten (siteBytes names (linksOf items)) (before ++ data ++ behind) out.positions = before ++ final ++ behind

theorem linkBytes_length (names : List (String × UInt64)) (name : String) (type : DataType) :
    (linkBytes names name type).length = GetSize type := NumericValue.length_iData _

/-- A resource is streamed behind the file, or stops at its first offset or run that is too large. -/
theorem streamOut_placed {expander : Bytes → List UInt16} {compress : List UInt16 → Bytes}
    (hcompress : ∀ words, expander (compress words) = words) (hempty : expander [] = []) (symbianV6hack : Bool)
    (names : List (String × UInt64)) (r : ResourceHeader) (hnested : Nested 0 (numbered 0 r.iRIA)) (file : Bytes) :
    (¬ Short (compressedRuns compress symbianV6hack (numbered 0 r.iRIA)) ∧
      ∃ m, StreamOut compress symbianV6hack r (.atEnd file) = .error (.runLength m)) ∨
    Short (compressedRuns compress symbianV6hack (numbered 0 r.iRIA)) ∧
    ∃ out data final, StreamOut compress symbianV6hack r (.atEnd file) = .ok out ∧
      Placed expander symbianV6hack names r.iRIA file out data final := by
  obtain ⟨lead, segs, hstream, hready, hruns, hkeys, hplaces, hsame⟩ := collect_segments hcompress hempty hnested
  set ids := siteBytes names (linksOf r.iRIA) with hids
  have hsite : ∀ k type, Call.link k type ∈ numbered 0 r.iRIA → ∃ name,
      (linksOf r.iRIA)[k]? = some (name, type) ∧ ids k = linkBytes names name type := by
    intro k type hmem
    obtain ⟨i, name, rfl, hi⟩ := link_numbered r.iRIA 0 hmem
    rw [Nat.zero_add]
    exact ⟨name, hi, by rw [hids, siteBytes, hi]; rfl⟩
  have hpatch : ∀ k type, Call.link k type ∈ numbered 0 r.iRIA → ∀ rest,
      overwrite ids k (placeHolder (GetSize type) ++ rest) = ids k ++ rest := by
    intro k type hmem rest
    obtain ⟨name, -, hk⟩ := hsite k type hmem
    have hholder : (placeHolder (GetSize type)).length = GetSize type := List.length_replicate
    rw [overwrite, hk, linkBytes_length, List.drop_left' hholder]
  have hroom : ∀ k bs, (k, bs) ∈ places segs → (ids k).length ≤ bs.length := by
    intro k bs hmem
    obtain ⟨type, rest, hlink, rfl⟩ := hplaces k bs hmem
    obtain ⟨name, -, hk⟩ := hsite k type hlink
    rw [hk, linkBytes_length, List.length_append, placeHolder, List.length_replicate]
    exact Nat.le_add_right _ _
  have hwhole : uncompressed names r.iRIA = layout 0 (.data lead :: pieces (patched (overwrite ids) segs)) := by
    have hpieces := callPieces_numbered names (fun k _ => ids k) r.iRIA 0 fun i name type hi => by
      rw [Nat.zero_add, hids, siteBytes, hi]
      rfl
    rw [uncompressed, ← hpieces]
    exact (hsame (overwrite ids) (fun k _ => ids k) hpatch 0).1
  have hcount : runCount segs < (ResourceDataStream.collect compress (numbered 0 r.iRIA)).iArrayOfMarks.length + 1 := by
    have hle := runCount_le segs
    rw [hstream]
    have hmarks : (streamOf lead segs).iArrayOfMarks.length = (marksOf 0 segs).length := length_marksOf segs _
    omega
  unfold StreamOut
  simp only
  rw [hstream] at hcount ⊢
  rw [← hruns]
  rcases @streamOut_done expander symbianV6hack file _ lead segs hcount hready with hlong |
    ⟨hshort, out, lead', segs', hout, hwritten⟩
  · exact .inl hlong
  · have hroom' : ∀ k bs, (k, bs) ∈ places segs' → (ids k).length ≤ bs.length := by
      rw [hwritten.places]
      exact hroom
    have hkeeps : Keeps (overwrite ids) segs' := fun k bs hmem => length_overwrite (hroom' k bs hmem)
    have hrun := hasRun_patched segs' hkeeps
    have hgood := good_patched segs' _ _ hkeeps hwritten.ready.good
    have hfits := fits_patched segs' _ hkeeps hwritten.fits
    have hlayout : uncompressed names r.iRIA =
        lead' ++ layout lead'.length (pieces (patched (overwrite ids) segs')) := by
      rw [hwhole, (hwritten.same (overwrite ids) 0).1, layout, Nat.zero_add]
    refine .inr ⟨hshort, out, lead' ++ emit lead'.length segs', lead' ++ emit lead'.length (patched (overwrite ids) segs'),
      hout, ?_, ?_, ?_, ?_, ?_, ?_, ?_, ?_⟩
    · rw [hwritten.out, List.append_assoc]
    · rw [List.length_append, List.length_append, length_emit_patched segs' _ hkeeps]
    · rw [hwritten.out, hlayout]
      show total lead'.length (pieces segs') = _
      rw [List.length_append, ← total_patched segs' _ hkeeps, total_eq]
    · intro hflag
      rw [hwritten.out] at hflag
      obtain ⟨rfl, words, compressed, bs, rest, rfl⟩ := hwritten.ready.front hflag
      rw [hlayout]
      exact expandRuns_emit expander _ false [] _ le_rfl (.inr ⟨words, compressed, bs, _, rfl⟩) hgood hfits
    · intro hflag
      rw [hwritten.out] at hflag
      rw [hlayout, emit_of_not_hasRun _ _ (hrun.trans hflag)]
    · intro hv
      rw [hwritten.out]
      exact hwritten.plain hv
    · rw [hwritten.out, List.range_eq_range', ← keys_numbered, ← hkeys, ← hwritten.places]
      exact sites_keys segs' _ _
    · intro before behind hlen
      have hover := overwritten_sites ids segs' (before ++ lead') behind lead'.length hroom'
      rw [hwritten.out]
      have hpos : (file ++ lead').length = (before ++ lead').length := by
        rw [List.length_append, List.length_append, hlen]
      show Rcomp.overwritten ids _ (sites (file ++ lead').length lead'.length segs') = _
      rw [hpos]
      simp only [List.append_assoc] at hover ⊢
      exact hover

/-! ### Links -/

theorem lookup_of_range {positions : List (ℕ × ℕ)} {n k : ℕ} (h : positions.map Prod.fst = List.range n)
    (hk : k < n) : ∃ pos, positions[k]? = some (k, pos) ∧ positions.lookup k = some pos := by
  have hlen : positions.length = n := by
    have := congrArg List.length h
    rwa [List.length_map, List.length_range] at this
  have hkey : ∀ i (hi : i < positions.length), positions[i].1 = i := by
    intro i hi
    have := congrArg (·[i]?) h
    simp only [List.getElem?_map, List.getElem?_eq_getElem hi, Option.map_some] at this
    rw [List.getElem?_eq_getElem (by rw [List.length_range]; omega), List.getElem_range] at this
    exact Option.some_inj.mp this
  have hk' : k < positions.length := by omega
  refine ⟨positions[k].2, ?_, ?_⟩
  · rw [List.getElem?_eq_getElem hk']
    exact congrArg some (Prod.ext (hkey k hk') rfl)
  · have hsplit : positions = positions.take k ++ positions[k] :: positions.drop (k + 1) := by
      rw [← List.drop_eq_getElem_cons hk', List.take_append_drop]
    have hnone : (positions.take k).lookup k = none := by
      rw [List.lookup_eq_none_iff]
      intro p hp
      obtain ⟨i, hi, rfl⟩ := List.getElem_of_mem hp
      rw [List.length_take] at hi
      rw [List.getElem_take, hkey i (by omega)]
      simp only [bne_iff_ne, ne_eq]
      omega
    have hself : positions[k] = (k, positions[k].2) := Prod.ext (hkey k hk') rfl
    have hfound : (positions.take k ++ positions[k] :: positions.drop (k + 1)).lookup k = some positions[k].2 := by
      rw [List.lookup_append, hnone, Option.none_or, hself, List.lookup_cons_self]
    exact (congrArg (List.lookup k) hsplit).trans hfound

theorem linkItems_eq (links : List (String × DataType)) (positions : List (ℕ × ℕ))
    (h : positions.map Prod.fst = List.range links.length) :
    linkItems links positions = List.zipWith (fun link site => ⟨link.1, link.2, site.2⟩) links positions := by
  have hlen : positions.length = links.length := by
    have := congrArg List.length h
    rwa [List.length_map, List.length_range] at this
  refine List.ext_getElem ?_ fun k hk _ => ?_
  · rw [linkItems, List.length_mapIdx, List.length_zipWith, hlen, Nat.min_self]
  · rw [linkItems, List.length_mapIdx] at hk
    obtain ⟨pos, hpos, hlookup⟩ := lookup_of_range h hk
    have hk' : k < positions.length := by omega
    have hget : positions[k] = (k, pos) := by
      rw [List.getElem?_eq_getElem hk'] at hpos
      exact Option.some_inj.mp hpos
    simp only [linkItems, List.getElem_mapIdx, List.getElem_zipWith, hlookup, hget, Option.getD_some]

theorem overwriteLink_cases (names : List (String × UInt64)) (file : Bytes) (pos : ℕ) (name : String)
    (type : DataType) (site : ℕ) :
    (FindId names name = none ∧ OverwriteLink names ⟨file, pos⟩ ⟨name, type, site⟩ = .error (.exits 1)) ∨
      (FindId names name ≠ none ∧ ∃ pos', OverwriteLink names ⟨file, pos⟩ ⟨name, type, site⟩ =
        .ok ⟨writeAt file site (linkBytes names name type), pos'⟩) := by
  unfold OverwriteLink linkBytes
  rcases hfind : FindId names name with _ | id
  · exact .inl ⟨rfl, rfl⟩
  · refine .inr ⟨Option.some_ne_none id, site + GetSize type, ?_⟩
    have hne : (⟨type, id.toNat⟩ : NumericValue).iData ≠ [] := by
      intro h
      have hlen := congrArg List.length h
      rw [NumericValue.length_iData] at hlen
      cases type <;> exact Nat.noConfusion hlen
    simp only [RCBinaryStream.SetPosition, RCBinaryStream.Write, if_neg hne, NumericValue.length_iData,
      Option.getD_some]

/-- The links of one resource, overwritten in order, or one of them names no resource. -/
theorem overwriteLinks_zip (names : List (String × UInt64)) (ids : ℕ → Bytes) :
    ∀ (links : List (String × DataType)) (positions : List (ℕ × ℕ)) (j : ℕ) (file : Bytes) (pos : ℕ),
    positions.map Prod.fst = List.range' j links.length →
    (∀ i name type, links[i]? = some (name, type) → ids (j + i) = linkBytes names name type) →
    ((∃ link ∈ links, FindId names link.1 = none) ∧
      (List.zipWith (fun link site => (⟨link.1, link.2, site.2⟩ : LinkItem)) links positions).foldlM
        (OverwriteLink names) ⟨file, pos⟩ = .error (.exits 1)) ∨
    ((∀ link ∈ links, FindId names link.1 ≠ none) ∧ ∃ pos', (List.zipWith
      (fun link site => (⟨link.1, link.2, site.2⟩ : LinkItem)) links positions).foldlM (OverwriteLink names)
        ⟨file, pos⟩ = .ok ⟨overwritten ids file positions, pos'⟩)
  | [], [], j, file, pos, _, _ => .inr ⟨fun _ h => absurd h List.not_mem_nil, pos, rfl⟩
  | [], _ :: _, j, file, pos, h, _ => nomatch h
  | _ :: _, [], j, file, pos, h, _ => nomatch h
  | (name, type) :: links, (k, site) :: positions, j, file, pos, h, hids => by
    rw [List.map_cons, List.length_cons, List.range'_succ, List.cons.injEq] at h
    obtain ⟨hk, htail⟩ := h
    have hid : ids k = linkBytes names name type := by
      rw [show k = j + 0 from hk]
      exact hids 0 name type rfl
    rw [List.zipWith_cons_cons, List.foldlM_cons]
    rcases overwriteLink_cases names file pos name type site with ⟨hnone, herr⟩ | ⟨hsome, pos', hok⟩
    · refine .inl ⟨⟨(name, type), List.mem_cons_self .., hnone⟩, ?_⟩
      rw [herr, run_error_bind]
    · rw [hok, run_ok_bind]
      rcases overwriteLinks_zip names ids links positions (j + 1) (writeAt file site (linkBytes names name type)) pos'
        htail (fun i name' type' hi => by
          rw [Nat.add_assoc, Nat.add_comm 1 i]
          exact hids (i + 1) name' type' hi) with ⟨⟨link, hlink, hnone⟩, herr⟩ |
        ⟨hknown, pos'', hok'⟩
      · exact .inl ⟨⟨link, List.mem_cons_of_mem _ hlink, hnone⟩, herr⟩
      · refine .inr ⟨fun link hlink => ?_, pos'', ?_⟩
        · rcases List.mem_cons.mp hlink with rfl | hlink
          · exact hsome
          · exact hknown link hlink
        rw [hok', overwritten, overwritten, List.foldl_cons, hid]

end GnuPoc.Rcomp
