import GnuPoc.Crtsis.Memory

/-!
# GnuPoc.Crtsis.HostOrder — the same package on a big-endian host

A number that is exchanged once before it is written comes to the file as its little-endian form on either host.  What
is read of a file, and what is written without an exchange, depends on the host.
-/

namespace GnuPoc.Crtsis

open GnuPoc.Lib

/-- The same host with its memory in the order `o`. -/
def Env.on (env : Env) (o : ByteOrder) : Env := { env with order := o }

/-! ### Records whose numbers are all exchanged -/

namespace TInstInstallation

theorem tailBytes_flip (o : ByteOrder) (h : TInstInstallation) :
    (h.flipTInstInstallation o).tailBytes o = (h.flipTInstInstallation .little).tailBytes .little := by
  have hspare : ∀ o : ByteOrder, (h.iSpare2.map o.flip16).flatMap o.bytes16 =
      h.iSpare2.flatMap fun v => leBytes 2 v.toNat := by
    intro o
    rw [List.flatMap_map]
    simp only [ByteOrder.bytes16_flip16]
  unfold flipTInstInstallation tailBytes
  dsimp only
  rw [hspare, hspare]
  simp only [ByteOrder.bytes16_flip16, ByteOrder.bytes32_flip32]

theorem bytes_flip (o : ByteOrder) (h : TInstInstallation) :
    (h.flipTInstInstallation o).bytes o = (h.flipTInstInstallation .little).bytes .little := by
  rw [bytes_flipTInstInstallation, bytes_flipTInstInstallation, tailBytes_flip]

end TInstInstallation

section
variable (env : Env) (o : ByteOrder) (w : SISWriter)

theorem WriteHeaderL_on (lines : List Place) (off : Offsets) (m_dwMaximumSpaceNeeded : UInt32) (m_stubFile : Bool) :
    WriteHeaderL (env.on o) w lines off m_dwMaximumSpaceNeeded m_stubFile =
      WriteHeaderL (env.on .little) w lines off m_dwMaximumSpaceNeeded m_stubFile := by
  funext s
  obtain ⟨hres, hout, hcheck⟩ := WriteHeaderL_apply (env.on o) w lines off m_dwMaximumSpaceNeeded m_stubFile s
  obtain ⟨hres', hout', hcheck'⟩ :=
    WriteHeaderL_apply (env.on .little) w lines off m_dwMaximumSpaceNeeded m_stubFile s
  apply Prod.ext
  · rw [hres, hres']
  · apply State.ext
    · rfl
    · rw [hout, hout']
      exact congrArg (s.out ++ ·) (TInstInstallation.bytes_flip o _)
    · rw [hcheck, hcheck']
      exact congrArg (Crc _) (TInstInstallation.tailBytes_flip o _)
    · rfl
    · rfl
    · rfl

theorem writeFlipped_on (v : UInt32) : writeFlipped (env.on o) v = writeFlipped (env.on .little) v := by
  simp only [writeFlipped, Env.on, ByteOrder.bytes32_flip32]

theorem WriteLanguageL_on : WriteLanguageL (env.on o) w = WriteLanguageL (env.on .little) w := by
  simp only [WriteLanguageL, Env.on, ByteOrder.bytes16_flip16]
  rfl

theorem WriteFileNodeL_on (pNode : Place) (f : PkgLineFile) :
    WriteFileNodeL (env.on o) w pNode f = WriteFileNodeL (env.on .little) w pNode f := by
  simp only [WriteFileNodeL, writeFlipped_on, configureFileNode]
  simp only [Env.on, ByteOrder.bytes32_flip32]

theorem writeOptionsLoop_on (i : ℕ) (strings : List WString) :
    writeOptionsLoop (env.on o) w i strings = writeOptionsLoop (env.on .little) w i strings := by
  induction i generalizing strings with
  | zero => rfl
  | succ i ih => simp only [writeOptionsLoop, writeOption, writeFlipped_on env o, ih]

theorem WriteOptionsNodeL_on (option : PkgLineOptions) :
    WriteOptionsNodeL (env.on o) w option = WriteOptionsNodeL (env.on .little) w option := by
  simp only [WriteOptionsNodeL, writeFlipped_on env o, writeOptionsLoop_on env o]

theorem writePkgLine_on {pNode : Place} (h : pNode.node.cond? = none) :
    writePkgLine (env.on o) w pNode = writePkgLine (env.on .little) w pNode := by
  rcases pNode with ⟨node, next⟩
  unfold writePkgLine
  rw [writeFlipped_on]
  cases node with
  | EInstPkgLineFile f => simp only [WriteFileNodeL_on env o]
  | EInstPkgLineLanguageFile f => simp only [WriteFileNodeL_on env o]
  | EInstPkgLineOption option => simp only [WriteOptionsNodeL_on env o]
  | EInstPkgLineCondIf cond => simp [PkgLineNode.cond?] at h
  | EInstPkgLineCondElseIf cond => simp [PkgLineNode.cond?] at h
  | EInstPkgLineCondElse => rfl
  | EInstPkgLineCondEndIf => rfl

theorem writeDepend_on (d : DependNode) : writeDepend (env.on o) w d = writeDepend (env.on .little) w d := by
  simp only [writeDepend, writeFlipped_on env o]
  simp only [Env.on, ByteOrder.bytes32_flip32, ByteOrder.bytes16_flip16]

theorem writeCapability_on (c : CapabilityNode) : writeCapability (env.on o) c = writeCapability (env.on .little) c := by
  simp only [writeCapability, Env.on, ByteOrder.bytes32_flip32]

theorem WriteCrcL_on : WriteCrcL (env.on o) = WriteCrcL (env.on .little) := by
  simp only [WriteCrcL, Env.on, ByteOrder.bytes16_flip16]

end

/-! ### Characters -/

/-- A unit of 16 bits that is the same in both orders. -/
def EqualBytes (v : UInt16) : Prop := v.toNat / 256 = v.toNat % 256

theorem EqualBytes.bytes16 {v : UInt16} (h : EqualBytes v) (o : ByteOrder) :
    o.bytes16 v = ByteOrder.little.bytes16 v := by
  have hlt : v.toNat / 256 < 256 := Nat.div_lt_of_lt_mul v.toNat_lt
  have hmod : v.toNat / 256 % 256 = v.toNat % 256 := by
    rw [Nat.mod_eq_of_lt hlt]
    exact h
  cases o with
  | little => rfl
  | big =>
    simp only [ByteOrder.bytes16, ByteOrder.arrange, leBytes, hmod, List.reverse_cons, List.reverse_nil, List.nil_append,
      List.cons_append]

theorem EqualBytes.flip16 {v : UInt16} (h : EqualBytes v) (o : ByteOrder) : o.flip16 v = v := by
  have hbytes := h.bytes16 o
  rw [ByteOrder.bytes16, ByteOrder.bytes16, ByteOrder.arrange] at hbytes
  rw [ByteOrder.flip16, ByteOrder.load, hbytes, ofLE_leBytes_of_lt v.toNat_lt, UInt16.ofNat_toNat]

section
variable (env : Env) (o : ByteOrder) (w : SISWriter)

/-- A string that is written in the same way on either host. -/
def PlainString (w : SISWriter) (psz : WString) : Prop := w.isUnicode ∨ ∀ c ∈ psz, EqualBytes c.toUInt16

theorem charBytes_on {c : UInt32} (h : w.isUnicode ∨ EqualBytes c.toUInt16) :
    charBytes (env.on o) w c = charBytes (env.on .little) w c := by
  simp only [charBytes, Env.on]
  rcases h with hunicode | hequal
  · simp only [hunicode, if_true, ByteOrder.bytes16_flip16]
  · rw [hequal.flip16, hequal.flip16, hequal.bytes16 o]

theorem WriteString_on {psz : WString} (h : PlainString w psz) :
    WriteString (env.on o) w psz = WriteString (env.on .little) w psz := by
  have hchars : psz.flatMap (charBytes (env.on o) w) = psz.flatMap (charBytes (env.on .little) w) := by
    apply List.flatMap_congr
    intro c hc
    apply charBytes_on
    exact h.imp id fun hequal => hequal c hc
  simp only [WriteString, hchars]

/-- The strings of a line that are written as strings of the package. -/
def lineTexts : PkgLineNode → List WString
  | .EInstPkgLineFile f => [f.pszSource, f.pszDest]
  | .EInstPkgLineLanguageFile f => [f.pszSource, f.pszDest]
  | .EInstPkgLineOption option => option.langStrings
  | _ => []

theorem writeLineStrings_on {pNode : Place} (hcond : pNode.node.cond? = none)
    (h : ∀ psz ∈ lineTexts pNode.node, PlainString w psz) :
    writeLineStrings (env.on o) w pNode = writeLineStrings (env.on .little) w pNode := by
  rcases pNode with ⟨node, next⟩
  cases node with
  | EInstPkgLineFile f =>
    simp only [writeLineStrings, WriteString_on env o w (h f.pszSource (by simp [lineTexts])),
      WriteString_on env o w (h f.pszDest (by simp [lineTexts]))]
  | EInstPkgLineLanguageFile f =>
    simp only [writeLineStrings, WriteString_on env o w (h f.pszSource (by simp [lineTexts])),
      WriteString_on env o w (h f.pszDest (by simp [lineTexts]))]
  | EInstPkgLineOption option => exact Run.each_congr fun psz hp => WriteString_on env o w (h psz hp)
  | EInstPkgLineCondIf cond => simp [PkgLineNode.cond?] at hcond
  | EInstPkgLineCondElseIf cond => simp [PkgLineNode.cond?] at hcond
  | EInstPkgLineCondElse => rfl
  | EInstPkgLineCondEndIf => rfl

/-- Every string that the package writes. -/
structure PlainStrings (lines : List Place) : Prop where
  lines : ∀ pNode ∈ lines, ∀ psz ∈ lineTexts pNode.node, PlainString w psz
  depends : ∀ d ∈ w.depends, ∀ psz ∈ d.langStrings, PlainString w psz
  names : ∀ psz ∈ w.langStrings, PlainString w psz

theorem WriteStringsL_on {lines : List Place} (hnamed : w.noLanguages.toNat ≤ w.langStrings.length)
    (hcond : ∀ pNode ∈ lines, pNode.node.cond? = none) (h : PlainStrings w lines) :
    WriteStringsL (env.on o) w lines = WriteStringsL (env.on .little) w lines := by
  refine WriteStringsL_congr hnamed ?_ ?_ ?_
  · exact Run.each_congr fun pNode hp => writeLineStrings_on env o w (hcond pNode hp) (h.lines pNode hp)
  · exact Run.each_congr fun d hd => Run.each_congr fun psz hp => WriteString_on env o w (h.depends d hd psz hp)
  · exact Run.each_congr fun psz hp => WriteString_on env o w (h.names psz hp)

/-! ### Text files -/

/-- A text without a mark that either host would find.  Where its buffer is converted, what is written of it are units
that are the same in both orders. -/
structure PlainText (env : Env) (s : State) (text : Bytes) : Prop where
  unmarked : ∀ o, textMark o text = (false, false)
  equal : ∀ units, ConvertUTF8toUTF16 (GetFileSize text)
      (ReadFile text (env.memory s.allocated (GetFileSize text)) (GetFileSize text)) = .conversionOK units →
    ∀ u ∈ units.take (transferred (4 * GetFileSize text % 2 ^ 32) / 2), EqualBytes u

theorem TempFileName_on (fileName : WString) : TempFileName (env.on o) fileName = TempFileName (env.on .little) fileName :=
  TempFileName_congr (by rfl) (by rfl) fileName

theorem two_dvd_transferred (n : ℕ) : 2 ∣ transferred (4 * n % 2 ^ 32) := by
  unfold transferred
  omega

theorem take_flatMap_bytes16 (o : ByteOrder) (units : List UInt16) (n : ℕ) :
    (units.flatMap o.bytes16).take (2 * n) = (units.take n).flatMap o.bytes16 := by
  induction units generalizing n with
  | nil => rw [List.take_nil, List.flatMap_nil, List.take_nil]
  | cons u units ih =>
    cases n with
    | zero => rfl
    | succ n =>
      rw [List.flatMap_cons, List.take_succ_cons, List.flatMap_cons, ← ih,
        show 2 * (n + 1) = (o.bytes16 u).length + 2 * n by rw [ByteOrder.length_bytes16]; omega, List.take_length_add_append]

/-- What is written of a converted text and the memory behind it. -/
theorem writtenBytes_on {units : List UInt16} {n : ℕ} (hn : 2 ∣ transferred n)
    (h : ∀ u ∈ units.take (transferred n / 2), EqualBytes u) (pBufU : Bytes) :
    writtenBytes (units.flatMap o.bytes16 ++ pBufU) n = writtenBytes (units.flatMap ByteOrder.little.bytes16 ++ pBufU) n := by
  have hunits : (units.flatMap o.bytes16).take (transferred n) =
      (units.flatMap ByteOrder.little.bytes16).take (transferred n) := by
    obtain ⟨k, hk⟩ := hn
    rw [hk, Nat.mul_div_cancel_left k (by decide)] at h
    rw [hk, take_flatMap_bytes16, take_flatMap_bytes16]
    exact List.flatMap_congr fun u hu => (h u hu).bytes16 o
  rw [writtenBytes, writtenBytes, List.take_append, List.take_append, hunits, length_flatMap_bytes16,
    length_flatMap_bytes16]

theorem ConvertFileToUnicode_on {name : WString} {s : State}
    (h : Holding (env.on .little) name (PlainText (env.on .little) s) s) :
    ConvertFileToUnicode (env.on o) name s = ConvertFileToUnicode (env.on .little) name s := by
  refine openSource_bind_congr (env.on .little) fun bytes hbytes => ?_
  have hplain := (h bytes hbytes).equal
  rw [Run.bind_ok (contents_apply _ _), Run.bind_ok (contents_apply _ _), hbytes, Option.getD_some,
    uninitialised_bind, uninitialised_bind, TempFileName_on]
  apply congrFun
  apply Run.bind_congr' rfl
  intro pszTempSource
  apply Run.bind_congr' rfl
  intro temp
  apply Run.bind_congr' rfl
  intro pBufU
  have hbuffer : (env.on o).memory s.allocated (GetFileSize bytes) =
      (env.on .little).memory s.allocated (GetFileSize bytes) := rfl
  rw [hbuffer]
  rcases hunits : ConvertUTF8toUTF16 (GetFileSize bytes) (ReadFile bytes
    ((env.on .little).memory s.allocated (GetFileSize bytes)) (GetFileSize bytes)) with units | _ | _
  · dsimp only [Env.on]
    rw [length_flatMap_bytes16, length_flatMap_bytes16,
      writtenBytes_on o (two_dvd_transferred _) (hplain units hunits)]
  · rfl
  · rfl

theorem checkTextFile_on (converted : Bool) (f : PkgLineFile) {s : State}
    (h : Holding (env.on .little) f.pszSource (PlainText (env.on .little) s) s) :
    checkTextFile (env.on o) converted f s = checkTextFile (env.on .little) converted f s := by
  rcases hfile : s.disk (sisFile (env.on .little) f.pszSource) with _ | bytes
  · have hstop : ∀ o, FileIsUnicode (env.on o) f.pszSource s = (.error .ErrCannotOpenFile, s) :=
      fun o => Run.bind_error (openSource_none (env.on o) hfile)
    rw [checkTextFile, checkTextFile, Run.bind_error (hstop o), Run.bind_error (hstop .little)]
  · have hmark : ∀ o, FileIsUnicode (env.on o) f.pszSource s = (.ok (false, false), s) := by
      intro o
      have hunicode := FileIsUnicode_apply (env.on o) hfile
      rwa [(h bytes hfile).unmarked] at hunicode
    rw [checkTextFile, checkTextFile, Run.bind_ok (hmark o), Run.bind_ok (hmark .little)]
    refine Run.bind_congr_at ?_ fun _ _ _ => rfl
    simp only [Bool.false_eq_true, not_false_eq_true, if_true]
    exact Run.bind_congr_at (ConvertFileToUnicode_on env o h) fun _ _ _ => rfl

/-! ### Embedded files -/

/-- An embedded file whose header word is there and the same in both orders. -/
def ComponentPlain (env : Env) (disk : WString → Option Bytes) (node : PkgLineNode) : Prop :=
  ∀ f, node.file? = some f → f.type = .EInstFileTypeComponent →
    ∀ bytes, disk (sisFile env f.pszSource) = some bytes →
      84 ≤ bytes.length ∧ ((bytes.drop 80).take 4).reverse = (bytes.drop 80).take 4

theorem CalculateInstallSizeOfFileL_on {disk : WString → Option Bytes} {node : PkgLineNode}
    (h : ComponentPlain (env.on .little) disk node) {s : State} (hs : s.disk = disk) :
    CalculateInstallSizeOfFileL (env.on o) node s = CalculateInstallSizeOfFileL (env.on .little) node s := by
  unfold CalculateInstallSizeOfFileL
  rcases hfile : node.file? with _ | f
  · rfl
  · cases htype : f.type with
    | EInstFileTypeComponent =>
      simp only [htype]
      refine openSource_bind_congr (env.on .little) fun bytes hbytes => ?_
      obtain ⟨hlen, hword⟩ := h f hfile htype bytes (hs ▸ hbytes)
      have hload : o.load ((bytes.drop 80).take 4) = ByteOrder.little.load ((bytes.drop 80).take 4) := by
        cases o with
        | little => rfl
        | big => rw [ByteOrder.load, ByteOrder.load, ByteOrder.arrange, ByteOrder.arrange, hword]
      rw [Run.bind_ok (contents_apply _ _), Run.bind_ok (contents_apply _ _), hbytes, Option.getD_some,
        uninitialised_bind, uninitialised_bind, word_of_header hlen, word_of_header hlen]
      exact congrArg (fun n => ((pure (UInt32.ofNat n) : Gen UInt32) _)) hload
    | _ => simp only [htype]

theorem CompressFiles_on (nodes : List PkgLineNode) :
    CompressFiles (env.on o) w nodes = CompressFiles (env.on .little) w nodes := by
  induction nodes with
  | nil => rfl
  | cons node nodes ih =>
    unfold CompressFiles
    rw [ih]
    rcases node.code? with _ | f
    · rfl
    · simp only [TempFileName_on env o]
      rfl

/-! ### The whole run -/

/-- No block that is written shows the order in memory: no line is a condition, each language has a name, and the
characters of a narrow package are the same in both orders. -/
structure BlocksPlain (env : Env) (m_stubFile : Bool) (w : SISWriter) (lines : List Place) (m_dwMaximumSpaceNeeded : UInt32)
    (s : State) : Prop where
  unconditional : Run.After (writeFront env w lines m_dwMaximumSpaceNeeded m_stubFile) (fun _ =>
    Run.Turns (writePkgLine env w) (fun pNode _ => pNode.node.cond? = none) lines) s
  strings : Run.After (do
      writeFront env w lines m_dwMaximumSpaceNeeded m_stubFile
      writeTables env w lines) (fun _ _ => w.noLanguages.toNat ≤ w.langStrings.length ∧
    (w.langStrings.length ≤ w.noLanguages.toNat → PlainStrings w lines)) s

/-- No step to which the run comes meets a number or a character whose order in memory shows in the file. -/
structure OrderFree (env : Env) (w : SISWriter) (target : WString) (m_stubFile : Bool) (s : State) : Prop where
  texts : w.sizeOfChar ≠ 1 ∧ ¬ m_stubFile → EachText env (fun f s' => Holding env f.pszSource (PlainText env s') s') false
    w.pkgLines (emptied env target s)
  components : Run.After (convertTexts env w m_stubFile) (fun w' s' =>
    UntilMissing env s'.disk (ComponentPlain env s'.disk) w'.pkgLines.reverse) (emptied env target s)
  blocks : AfterPrepare env w m_stubFile (BlocksPlain env m_stubFile) (emptied env target s)

variable (target : WString) (m_stubFile : Bool)

theorem prepare_on {s : State} (h : OrderFree (env.on .little) w target m_stubFile s) :
    prepare (env.on o) w m_stubFile (emptied env target s) =
      prepare (env.on .little) w m_stubFile (emptied env target s) :=
  prepare_congr (fun converted f _ hs => checkTextFile_on env o converted f hs)
    (fun _ _ hnode _ hs => CalculateInstallSizeOfFileL_on env o hnode hs) (CompressFiles_on env o) h.texts h.components

theorem writeFront_on (lines : List Place) (m_dwMaximumSpaceNeeded : UInt32) :
    writeFront (env.on o) w lines m_dwMaximumSpaceNeeded m_stubFile =
      writeFront (env.on .little) w lines m_dwMaximumSpaceNeeded m_stubFile := by
  rw [writeFront, writeFront, WriteHeaderL_on, WriteLanguageL_on]

theorem writeTables_on {lines : List Place} {s : State}
    (h : Run.Turns (writePkgLine (env.on .little) w) (fun pNode _ => pNode.node.cond? = none) lines s) :
    writeTables (env.on o) w lines s = writeTables (env.on .little) w lines s := by
  have hdepends : WriteDependL (env.on o) w = WriteDependL (env.on .little) w :=
    Run.each_congr fun d _ => writeDepend_on env o w d
  have hcapabilities : WriteCapabilitiesL (env.on o) w = WriteCapabilitiesL (env.on .little) w :=
    Run.each_congr fun c _ => writeCapability_on env o c
  rw [writeTables, writeTables, hdepends, hcapabilities]
  refine Run.bind_congr_at ?_ fun _ _ _ => rfl
  exact Run.each_congr_at (fun pNode _ hp => congrFun (writePkgLine_on env o w hp) _) h

theorem writeBlocks_on {lines : List Place} {m_dwMaximumSpaceNeeded : UInt32} {s : State}
    (h : BlocksPlain (env.on .little) m_stubFile w lines m_dwMaximumSpaceNeeded s) :
    writeBlocks (env.on o) w target lines m_dwMaximumSpaceNeeded m_stubFile s =
      writeBlocks (env.on .little) w target lines m_dwMaximumSpaceNeeded m_stubFile s := by
  rw [writeBlocks_parts, writeBlocks_parts, writeFront_on, WriteCrcL_on]
  refine Run.bind_congr_at ?_ fun _ _ _ => rfl
  have htables := Run.bind_congr_at (Eq.refl (writeFront (env.on .little) w lines m_dwMaximumSpaceNeeded m_stubFile s))
    fun a s' hs' => writeTables_on env o w (h.unconditional a s' hs')
  refine Run.bind_congr_at htables fun _ s' hs' => ?_
  rw [htables] at hs'
  obtain ⟨hnamed, hplain⟩ := h.strings _ s' hs'
  by_cases hcount : w.langStrings.length ≤ w.noLanguages.toNat
  · obtain ⟨_, s₁, hfront, hrest⟩ := Run.ok_of_bind hs'
    obtain ⟨_, s₂, hlines, -⟩ := Run.ok_of_bind hrest
    have hcond := (h.unconditional _ s₁ hfront).forall_of_ok hlines
    rw [WriteStringsL_on env o w hnamed hcond (hplain hcount)]
  · have hstop : ∀ o, WriteStringsL (env.on o) w lines s' =
        (.error .undefined, { s' with allocated := s'.allocated + 1 + 1 }) := by
      intro o
      rw [WriteStringsL, uninitialised_bind, uninitialised_bind, if_pos (Nat.lt_of_not_le hcount)]
      rfl
    rw [hstop, hstop]

/-- Where no step depends on the order of bytes in memory, a big-endian host writes the same file, and everything else
of its run is the same. -/
theorem GenerateSISFile_on {s : State} (h : OrderFree (env.on .little) w target m_stubFile s) :
    GenerateSISFile (env.on o) w target m_stubFile s = GenerateSISFile (env.on .little) w target m_stubFile s := by
  rw [GenerateSISFile_apply, GenerateSISFile_apply]
  have hprepare := prepare_on env o w target m_stubFile h
  refine Run.bind_congr_at hprepare fun prepared s' hprepared => ?_
  dsimp only [writePrepared]
  rcases hlines : places prepared.1.noLanguages.toNat 0 prepared.1.pkgLines with _ | lines
  · rfl
  · exact writeBlocks_on env o prepared.1 _ m_stubFile (h.blocks prepared s' (hprepare ▸ hprepared) lines hlines)

end

theorem isUnicode_samplePackage : samplePackage.isUnicode := by decide

theorem orderFree_sample : OrderFree ((sampleEnv .big).on .little) samplePackage [83] false sampleState where
  texts := fun _ => trivial
  components := by
    intro w' s' h
    obtain ⟨rfl, rfl⟩ : _ = w' ∧ _ = s' := ⟨Except.ok.inj (congrArg Prod.fst h), congrArg Prod.snd h⟩
    refine ⟨?_, fun _ => trivial⟩
    intro f hfile htype
    cases hfile
    cases htype
  blocks := by
    intro prepared s' h lines hlines
    obtain ⟨rfl, rfl⟩ : _ = prepared ∧ _ = s' := ⟨Except.ok.inj (congrArg Prod.fst h), congrArg Prod.snd h⟩
    obtain rfl : _ = lines := Option.some.inj hlines
    refine ⟨fun _ s' _ => Run.Turns.of_forall (fun _ hp _ => ?_) s', fun _ _ _ => ⟨le_rfl, fun _ => ?_⟩⟩
    · rw [List.mem_singleton.mp hp]
      rfl
    · exact ⟨fun _ _ _ _ => .inl isUnicode_samplePackage, fun _ _ _ _ => .inl isUnicode_samplePackage,
        fun _ _ => .inl isUnicode_samplePackage⟩

theorem GenerateSISFile_on_sample :
    GenerateSISFile ((sampleEnv .big).on .big) samplePackage [83] false sampleState =
      GenerateSISFile ((sampleEnv .big).on .little) samplePackage [83] false sampleState :=
  GenerateSISFile_on (sampleEnv .big) .big samplePackage [83] false orderFree_sample

/-- The type of an expression is not exchanged. -/
theorem GenerateSISFile_depends_on_host :
    ¬ ∀ (env : Env) (w : SISWriter) (target : WString) (m_stubFile : Bool) (s : State),
      (GenerateSISFile (env.on .big) w target m_stubFile s).2.out =
        (GenerateSISFile (env.on .little) w target m_stubFile s).2.out := by
  intro h
  have hout := h (sampleEnv .little) (conditionalPackage (.EInstCondFuncExists (.EInstCondPrimTypeString [97]))) [83]
    false sampleState
  revert hout
  decide +kernel

end GnuPoc.Crtsis
