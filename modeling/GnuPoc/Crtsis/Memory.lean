import GnuPoc.Crtsis.Checksum

/-!
# GnuPoc.Crtsis.Memory — what of uninitialised memory comes into the file

The generator runs twice, on hosts whose memory holds different bytes at first.  Each place that takes memory writes all
of it, or passes some of it on.
-/

namespace GnuPoc.Crtsis

open GnuPoc.Lib

/-- The same host with other memory. -/
def Env.withMemory (env : Env) (memory : ℕ → ℕ → Bytes) (h : ∀ k n, (memory k n).length = n) : Env :=
  { env with memory := memory, length_memory := h }

section
variable (env : Env)

theorem uninitialised_bind {α : Type} (n : ℕ) (f : Bytes → Gen α) (s : State) : (uninitialised env n >>= f) s =
    f (env.memory s.allocated n) { s with allocated := s.allocated + 1 } := rfl

/-! ### Text files -/

/-- A byte for which the exchange takes a byte from behind the end of the file. -/
def Stranded : ByteOrder → ℕ → Prop
  | .little, size => size % 4 = 1
  | .big, size => size % 4 = 3

theorem bytes32_exchange (o : ByteOrder) (word : ℕ) : o.bytes32 (exchange word) =
    o.arrange [UInt8.ofNat (word / 256 % 256), UInt8.ofNat (word % 256), 0, 0] := by
  have hlo : word / 256 % 256 < 256 := Nat.mod_lt _ (by decide)
  have hhi : word % 256 < 256 := Nat.mod_lt _ (by decide)
  have hword : (exchange word).toNat = word / 256 % 256 + word % 256 * 256 := by
    rw [exchange, UInt32.toNat_ofNat']
    omega
  have hmod : (word / 256 % 256 + word % 256 * 256) % 256 = word / 256 % 256 := by omega
  have hdiv : (word / 256 % 256 + word % 256 * 256) / 256 = word % 256 := by omega
  rw [ByteOrder.bytes32, hword]
  simp only [leBytes, hmod, hdiv, Nat.mod_mod, Nat.div_eq_of_lt hhi]
  rfl

theorem exchange_little (a b : UInt8) (bytes : Bytes) :
    ByteOrder.little.bytes32 (exchange (ByteOrder.little.load (a :: b :: bytes))) = [b, a, 0, 0] := by
  have ha : a.toNat < 256 := a.toNat_lt
  have hb : b.toNat < 256 := b.toNat_lt
  have hlo : ByteOrder.little.load (a :: b :: bytes) % 256 = a.toNat := by
    simp only [ByteOrder.load, ByteOrder.arrange, ofLE]
    omega
  have hhi : ByteOrder.little.load (a :: b :: bytes) / 256 % 256 = b.toNat := by
    simp only [ByteOrder.load, ByteOrder.arrange, ofLE]
    omega
  rw [bytes32_exchange, hlo, hhi, UInt8.ofNat_toNat, UInt8.ofNat_toNat, ByteOrder.arrange]

theorem take_exchange (o : ByteOrder) (bytes g g' : Bytes) (hlen : bytes.length < 4) (h : ¬ Stranded o bytes.length) :
    (o.bytes32 (exchange (o.load ((bytes ++ g).take 4)))).take bytes.length =
      (o.bytes32 (exchange (o.load ((bytes ++ g').take 4)))).take bytes.length := by
  cases o with
  | little =>
    rcases bytes with _ | ⟨a, _ | ⟨b, rest⟩⟩
    · simp only [List.length_nil, List.take_zero]
    · exact absurd rfl h
    · rw [List.cons_append, List.cons_append, List.cons_append, List.cons_append]
      simp only [List.take_succ_cons, exchange_little]
  | big =>
    have hlen' : bytes.length ≤ 2 := by
      by_contra hlt
      have h3 : bytes.length = 3 := by omega
      exact h (by rw [h3]; rfl)
    have hzeros : ∀ x y : UInt8, ([0, 0, x, y] : Bytes).take bytes.length = List.replicate bytes.length 0 := by
      intro x y
      rcases hn : bytes.length with _ | _ | n
      · rfl
      · rfl
      · have hn' : n = 0 := by omega
        rw [hn']
        rfl
    rw [bytes32_exchange, bytes32_exchange, ByteOrder.arrange, ByteOrder.arrange]
    exact (hzeros _ _).trans (hzeros _ _).symm

/-- Where no byte is stranded, the exchange takes nothing from behind the bytes. -/
theorem take_exchangeWords (n : ℕ) (bytes g g' : Bytes) (h : ¬ Stranded env.order bytes.length) :
    (exchangeWords env n (bytes ++ g)).take bytes.length = (exchangeWords env n (bytes ++ g')).take bytes.length := by
  induction n generalizing bytes with
  | zero => rw [exchangeWords, exchangeWords, List.take_left, List.take_left]
  | succ n ih =>
    have hword : ∀ v, (env.order.bytes32 v).length = 4 := env.order.length_bytes32
    rw [exchangeWords, exchangeWords]
    rcases Nat.lt_or_ge bytes.length 4 with hlt | hge
    · have hfirst : ∀ v rest, (env.order.bytes32 v ++ rest).take bytes.length =
          (env.order.bytes32 v).take bytes.length := by
        intro v rest
        apply List.take_append_of_le_length
        rw [hword]
        exact hlt.le
      rw [hfirst, hfirst, take_exchange _ bytes g g' hlt h]
    · have hrest : ¬ Stranded env.order (bytes.drop 4).length := by
        rw [List.length_drop]
        intro hs
        apply h
        cases ho : env.order with
        | little =>
          rw [ho] at hs
          simp only [Stranded] at hs ⊢
          omega
        | big =>
          rw [ho] at hs
          simp only [Stranded] at hs ⊢
          omega
      rw [List.take_append_of_le_length hge, List.take_append_of_le_length hge, List.drop_append_of_le_length hge,
        List.drop_append_of_le_length hge, List.take_append, List.take_append, hword, ← List.length_drop, ih _ hrest]

/-- What `FileIsUnicode` finds at the beginning of a file. -/
def textMark (o : ByteOrder) (bytes : Bytes) : Bool × Bool :=
  if (bytes.take 4).length = 4 ∧ o.load (bytes.take 4) = 0xfeff then (true, true)
  else if (bytes.take 4).length = 4 ∧ o.load (bytes.take 4) = 0xfffe then (true, false)
  else (false, false)

variable {disk : WString → Option Bytes} {s : State}

theorem FileIsUnicode_apply {name : WString} {bytes : Bytes} (h : s.disk (sisFile env name) = some bytes) :
    FileIsUnicode env name s = (.ok (textMark env.order bytes), s) := by
  have hmark : (if (bytes.take 4).length = 4 ∧ env.order.load (bytes.take 4) = 0xfeff then pure (true, true)
      else if (bytes.take 4).length = 4 ∧ env.order.load (bytes.take 4) = 0xfffe then pure (true, false)
      else pure (false, false)) = (pure (textMark env.order bytes) : Gen (Bool × Bool)) := by
    rw [textMark, apply_ite pure, apply_ite pure]
  rw [FileIsUnicode, Run.bind_ok (openSource_some env h), Run.bind_ok (contents_apply _ _), h, Option.getD_some]
  exact congrFun hmark s

theorem FileIsUnicode_ok {name : WString} {s s' : State} {mark : Bool × Bool}
    (h : FileIsUnicode env name s = (.ok mark, s')) :
    ∃ bytes, s.disk (sisFile env name) = some bytes ∧ mark = textMark env.order bytes ∧ s' = s := by
  rcases hfile : s.disk (sisFile env name) with _ | bytes
  · rw [FileIsUnicode, Run.bind_error (openSource_none env hfile)] at h
    simp at h
  · rw [FileIsUnicode_apply env hfile] at h
    simp only [Prod.mk.injEq, Except.ok.injEq] at h
    exact ⟨bytes, rfl, h.1.symm, h.2.symm⟩

/-- A text in UTF-8 that is read as far as its buffer goes, and fills what is written of the other buffer. -/
def FullyConverted (text : Bytes) : Prop :=
  GetFileSize text ≤ 0x7ffff000 ∧
    ∀ units, ConvertUTF8toUTF16 (GetFileSize text) (text.take (GetFileSize text)) = .conversionOK units →
      transferred (4 * GetFileSize text % 2 ^ 32) ≤ 2 * units.length

/-- A text of which nothing but its own bytes comes into the converted file. -/
def TextSettled (o : ByteOrder) (text : Bytes) : Prop :=
  match textMark o text with
  | (true, true) => True
  | (true, false) => ¬ Stranded o (transferred (GetFileSize text))
  | (false, _) => FullyConverted text

theorem TempFileName_congr {env env' : Env} (hfile : env'.fileOf = env.fileOf) (htmp : env'.tmpPath = env.tmpPath)
    (fileName : WString) : TempFileName env' fileName = TempFileName env fileName := by
  have hname : tempName env' fileName = tempName env fileName := by
    funext i
    cases i with
    | zero => rw [tempName, tempName, htmp]
    | succ i => rw [tempName, tempName, htmp]
  have hopen : openExisting env' = openExisting env := by
    funext name
    simp only [openExisting, sisFile, hfile]
    rfl
  have hfind : ∀ n i, findTemp env' fileName n i = findTemp env fileName n i := by
    intro n
    induction n with
    | zero =>
      intro i
      rw [findTemp, findTemp, hname]
    | succ n ih =>
      intro i
      rw [findTemp, findTemp, hname, hopen, ih]
  rw [TempFileName, TempFileName, hfind]

variable (memory : ℕ → ℕ → Bytes) (hmemory : ∀ k n, (memory k n).length = n)

theorem TempFileName_withMemory (fileName : WString) :
    TempFileName (env.withMemory memory hmemory) fileName = TempFileName env fileName :=
  TempFileName_congr (by rfl) (by rfl) fileName

theorem exchangeWords_withMemory (n : ℕ) (buf : Bytes) :
    exchangeWords (env.withMemory memory hmemory) n buf = exchangeWords env n buf := by
  induction n generalizing buf with
  | zero => rfl
  | succ n ih =>
    rw [exchangeWords, exchangeWords, ih]
    rfl

theorem length_take_size (bytes : Bytes) :
    (bytes.take (transferred (GetFileSize bytes))).length = transferred (GetFileSize bytes) := by
  have hsize : transferred (GetFileSize bytes) ≤ bytes.length := (Nat.min_le_left _ _).trans (Nat.mod_le _ _)
  rw [List.length_take, Nat.min_eq_left hsize]

theorem ConvertFileToLittleEndianUnicode_withMemory {name : WString}
    (h : Holding env name (fun bytes => ¬ Stranded env.order (transferred (GetFileSize bytes))) s) :
    ConvertFileToLittleEndianUnicode (env.withMemory memory hmemory) name s =
      ConvertFileToLittleEndianUnicode env name s := by
  refine openSource_bind_congr env fun bytes hbytes => ?_
  rw [Run.bind_ok (contents_apply _ _), Run.bind_ok (contents_apply _ _), hbytes, Option.getD_some,
    uninitialised_bind, uninitialised_bind, env.length_memory, Env.length_memory, TempFileName_withMemory,
    exchangeWords_withMemory]
  apply congrFun
  split
  · rfl
  · apply Run.bind_congr' rfl
    intro pszTempSource
    apply Run.bind_congr' rfl
    intro temp
    have hlen := length_take_size bytes
    have htake := fun g g' => take_exchangeWords env (GetFileSize bytes / 2)
      (bytes.take (transferred (GetFileSize bytes))) g g' (by rw [hlen]; exact h bytes hbytes)
    rw [hlen] at htake
    exact congrArg (fun text => setContents temp (some text) >>= fun _ => pure pszTempSource) (htake _ _)

theorem length_flatMap_bytes16 (o : ByteOrder) (units : List UInt16) :
    (units.flatMap o.bytes16).length = 2 * units.length := by
  induction units with
  | nil => rfl
  | cons u units ih =>
    rw [List.flatMap_cons, List.length_append, ByteOrder.length_bytes16, ih, List.length_cons]
    omega

/-- A buffer that is read as far as it goes. -/
theorem readFile_full {bytes buffer : Bytes} (h : GetFileSize bytes ≤ 0x7ffff000) (hlen : buffer.length = GetFileSize bytes) :
    ReadFile bytes buffer (GetFileSize bytes) = bytes.take (GetFileSize bytes) := by
  have hread : transferred (GetFileSize bytes) = GetFileSize bytes := Nat.min_eq_left h
  have hsize := length_take_size bytes
  rw [hread] at hsize
  rw [ReadFile, hread, hsize, List.drop_eq_nil_of_le hlen.le, List.append_nil]

/-- A conversion that fills what it writes shows nothing of its buffer. -/
theorem ConvertFileToUnicode_withMemory {name : WString} (h : Holding env name FullyConverted s) :
    ConvertFileToUnicode (env.withMemory memory hmemory) name s = ConvertFileToUnicode env name s := by
  refine openSource_bind_congr env fun bytes hbytes => ?_
  obtain ⟨hread, hfilled⟩ := h bytes hbytes
  rw [Run.bind_ok (contents_apply _ _), Run.bind_ok (contents_apply _ _), hbytes, Option.getD_some,
    uninitialised_bind, uninitialised_bind, TempFileName_withMemory, readFile_full hread (env.length_memory _ _),
    readFile_full hread (Env.length_memory _ _ _)]
  apply congrFun
  apply Run.bind_congr' rfl
  intro pszTempSource
  apply Run.bind_congr' rfl
  intro temp
  funext s'
  rw [uninitialised_bind, uninitialised_bind]
  apply congrFun
  rcases hunits : ConvertUTF8toUTF16 (GetFileSize bytes) (bytes.take (GetFileSize bytes)) with units | _ | _
  · have hwritten : ∀ o (pBufU : Bytes), writtenBytes (units.flatMap (ByteOrder.bytes16 o) ++ pBufU)
        (4 * GetFileSize bytes % 2 ^ 32) =
        (units.flatMap o.bytes16).take (transferred (4 * GetFileSize bytes % 2 ^ 32)) := by
      intro o pBufU
      rw [writtenBytes, List.take_append_of_le_length]
      rw [length_flatMap_bytes16]
      exact hfilled units hunits
    dsimp only
    rw [hwritten, hwritten]
    rfl
  · rfl
  · rfl

theorem checkTextFile_withMemory (converted : Bool) (f : PkgLineFile)
    (h : Holding env f.pszSource (TextSettled env.order) s) :
    checkTextFile (env.withMemory memory hmemory) converted f s = checkTextFile env converted f s := by
  refine Run.bind_congr_at rfl fun mark s' hmark => ?_
  obtain ⟨bytes, hfile, hm, rfl⟩ := FileIsUnicode_ok env hmark
  have hsettled := h bytes hfile
  unfold TextSettled at hsettled
  rw [← hm] at hsettled
  have hholding : ∀ {Q : Bytes → Prop}, Q bytes → Holding env f.pszSource Q s' := by
    intro Q hQ text htext
    rw [hfile] at htext
    exact Option.some.inj htext ▸ hQ
  refine Run.bind_congr_at ?_ fun _ _ _ => rfl
  rcases mark with ⟨_ | _, _ | _⟩
  · simp only [Bool.false_eq_true, not_false_eq_true, if_true]
    exact Run.bind_congr_at (ConvertFileToUnicode_withMemory env memory hmemory (hholding hsettled)) fun _ _ _ => rfl
  · simp only [Bool.false_eq_true, not_false_eq_true, if_true]
    exact Run.bind_congr_at (ConvertFileToUnicode_withMemory env memory hmemory (hholding hsettled)) fun _ _ _ => rfl
  · simp only [not_true_eq_false, if_false, Bool.false_eq_true, not_false_eq_true, if_true]
    exact Run.bind_congr_at (ConvertFileToLittleEndianUnicode_withMemory env memory hmemory (hholding hsettled))
      fun _ _ _ => rfl
  · simp only [not_true_eq_false, if_false]

/-- Two hosts that do the same with each text file do the same with all of them. -/
theorem CheckUnicodeTextFiles_congr {env' : Env} {P : PkgLineFile → State → Prop}
    (hcheck : ∀ converted f s, P f s → checkTextFile env' converted f s = checkTextFile env converted f s)
    (converted : Bool) (nodes : List PkgLineNode) (h : EachText env P converted nodes s) :
    CheckUnicodeTextFiles env' converted nodes s = CheckUnicodeTextFiles env converted nodes s := by
  induction nodes generalizing converted s with
  | nil => rfl
  | cons node nodes ih =>
    unfold CheckUnicodeTextFiles
    unfold EachText at h
    rcases hfile : node.file? with _ | f
    · rw [hfile] at h
      exact Run.bind_congr_at (ih converted h) fun _ _ _ => rfl
    · rw [hfile] at h
      by_cases htext : f.type = .EInstFileTypeText
      · simp only [htext, if_true] at h ⊢
        have hsame := hcheck converted f s h.1
        refine Run.bind_congr_at hsame fun checked s' hchecked => ?_
        rw [hsame] at hchecked
        exact Run.bind_congr_at (ih checked.1 (h.2 checked s' hchecked)) fun _ _ _ => rfl
      · simp only [htext, if_false] at h ⊢
        exact Run.bind_congr_at (ih converted h) fun _ _ _ => rfl

/-! ### The size of the installation -/

/-- An embedded file that has the word which is read of its header. -/
def ComponentSettled (env : Env) (disk : WString → Option Bytes) (node : PkgLineNode) : Prop :=
  ∀ f, node.file? = some f → f.type = .EInstFileTypeComponent →
    ∀ bytes, disk (sisFile env f.pszSource) = some bytes → 84 ≤ bytes.length

theorem word_of_header {bytes g : Bytes} (h : 84 ≤ bytes.length) :
    ((bytes.take 100 ++ g).drop 80).take 4 = (bytes.drop 80).take 4 := by
  have hlen : (bytes.take 100).length = min 100 bytes.length := List.length_take
  rw [List.drop_append_of_le_length (by omega), List.take_append_of_le_length (by rw [List.length_drop]; omega),
    List.drop_take, List.take_take]
  rfl

theorem sameDisk_memoryFrame : MemoryFrame fun s s' => s'.disk = s.disk where
  refl _ := rfl
  trans _ _ _ h h' := h'.trans h
  allocate _ := rfl

theorem CalculateInstallSizeOfFileL_withMemory {node : PkgLineNode}
    (h : ComponentSettled env disk node) (hs : s.disk = disk) :
    CalculateInstallSizeOfFileL (env.withMemory memory hmemory) node s = CalculateInstallSizeOfFileL env node s := by
  unfold CalculateInstallSizeOfFileL
  rcases hfile : node.file? with _ | f
  · rfl
  · cases htype : f.type with
    | EInstFileTypeComponent =>
      simp only [htype]
      refine openSource_bind_congr env fun bytes hbytes => ?_
      have hlen := h f hfile htype bytes (hs ▸ hbytes)
      rw [Run.bind_ok (contents_apply _ _), Run.bind_ok (contents_apply _ _), hbytes, Option.getD_some,
        uninitialised_bind, uninitialised_bind, word_of_header hlen, word_of_header hlen]
      rfl
    | _ => simp only [htype]

/-- What holds of the nodes to which the estimate comes: an embedded file that is missing ends it. -/
def UntilMissing (env : Env) (disk : WString → Option Bytes) (P : PkgLineNode → Prop) : List PkgLineNode → Prop
  | [] => True
  | node :: nodes => P node ∧ ((∀ f, node.file? = some f → f.type = .EInstFileTypeComponent →
      (disk (sisFile env f.pszSource)).isSome) → UntilMissing env disk P nodes)

theorem UntilMissing.skip {P : PkgLineNode → Prop} {node : PkgLineNode}
    {nodes : List PkgLineNode} (h : UntilMissing env disk P (node :: nodes)) (hfile : node.file? = none) :
    UntilMissing env disk P nodes := by
  apply h.2
  intro f hf
  rw [hfile] at hf
  simp at hf

theorem UntilMissing.next {P : PkgLineNode → Prop} {node : PkgLineNode}
    {nodes : List PkgLineNode} (h : UntilMissing env disk P (node :: nodes)) {size : UInt32}
    (hs : s.disk = disk) (hok : (CalculateInstallSizeOfFileL env node s).1 = .ok size) :
    UntilMissing env disk P nodes := by
  apply h.2
  intro f hfile htype
  by_contra hmissing
  have hnone : s.disk (sisFile env f.pszSource) = none := by
    rw [hs]
    simpa using hmissing
  rw [CalculateInstallSizeOfFileL, hfile] at hok
  simp only [htype] at hok
  rw [Run.bind_error (openSource_none env hnone)] at hok
  simp at hok

section
variable {env env' : Env} {P : State → Prop} {L : List PkgLineNode → Prop}
  (h : ∀ node nodes, L (node :: nodes) →
    Run.Agree P (fun _ => L nodes) (CalculateInstallSizeOfFileL env' node) (CalculateInstallSizeOfFileL env node))
  (hskip : ∀ node nodes, L (node :: nodes) → node.file? = none → L nodes)
include h hskip

mutual

theorem branchSize_agree : ∀ (fuel : ℕ) (needsOfBlock : UInt32) (nodes : List PkgLineNode), L nodes →
    Run.Agree P (fun rest => ∃ node tail, rest.2 = node :: tail ∧ node.file? = none ∧ L rest.2)
      (branchSize env' fuel needsOfBlock nodes) (branchSize env fuel needsOfBlock nodes)
  | 0, _, _, _ => by
    unfold branchSize
    exact Run.Agree.stop _
  | fuel + 1, _, [], _ => by
    unfold branchSize
    exact Run.Agree.stop _
  | fuel + 1, needsOfBlock, node :: nodes, hnodes => by
    unfold branchSize
    split
    · exact Run.Agree.pure ⟨_, _, rfl, rfl, hnodes⟩
    · exact Run.Agree.pure ⟨_, _, rfl, rfl, hnodes⟩
    · exact Run.Agree.pure ⟨_, _, rfl, rfl, hnodes⟩
    · exact Run.Agree.bind (ifBlockSize_agree fuel 0 nodes (hskip _ _ hnodes rfl))
        fun rest hr => branchSize_agree fuel _ rest.2 hr
    · exact Run.Agree.bind (h _ _ hnodes) fun _ hr => branchSize_agree fuel _ nodes hr

theorem ifBlockSize_agree : ∀ (fuel : ℕ) (spaceNeeded : UInt32) (nodes : List PkgLineNode), L nodes →
    Run.Agree P (fun rest => L rest.2) (ifBlockSize env' fuel spaceNeeded nodes)
      (ifBlockSize env fuel spaceNeeded nodes)
  | 0, _, _, _ => by
    unfold ifBlockSize
    exact Run.Agree.stop _
  | fuel + 1, spaceNeeded, nodes, hnodes => by
    unfold ifBlockSize
    apply Run.Agree.bind (branchSize_agree fuel 0 nodes hnodes)
    rintro ⟨needsOfBlock, _⟩ ⟨node, tail, rfl, hfile, hr⟩
    have htail := hskip node tail hr hfile
    cases node with
    | EInstPkgLineCondEndIf => exact Run.Agree.pure htail
    | _ => exact ifBlockSize_agree fuel _ _ htail

end

theorem estimateLoop_agree : ∀ (fuel : ℕ) (size : UInt32) (nodes : List PkgLineNode), L nodes →
    Run.Agree P (fun _ => True) (estimateLoop env' fuel size nodes) (estimateLoop env fuel size nodes)
  | _, _, [], _ => by
    unfold estimateLoop
    exact Run.Agree.pure trivial
  | 0, _, _ :: _, _ => by
    unfold estimateLoop
    exact Run.Agree.stop _
  | fuel + 1, size, node :: nodes, hnodes => by
    cases node with
    | EInstPkgLineCondIf cond =>
      unfold estimateLoop
      exact Run.Agree.bind (ifBlockSize_agree h hskip _ 0 nodes (hskip _ _ hnodes rfl))
        fun rest hr => estimateLoop_agree _ _ rest.2 hr
    | _ =>
      unfold estimateLoop
      exact Run.Agree.bind (h _ _ hnodes) fun _ hr => estimateLoop_agree _ _ nodes hr

end

theorem EstimateInstallationSizeL_congr {env' : Env} {P : PkgLineNode → Prop}
    (h : ∀ node, P node → ∀ s : State, s.disk = disk →
      CalculateInstallSizeOfFileL env' node s = CalculateInstallSizeOfFileL env node s)
    (w : SISWriter) (hnodes : UntilMissing env disk P w.pkgLines.reverse) (hs : s.disk = disk) :
    EstimateInstallationSizeL env' w s = EstimateInstallationSizeL env w s := by
  have hagree : ∀ node nodes, UntilMissing env disk P (node :: nodes) → Run.Agree (fun s => s.disk = disk)
      (fun _ => UntilMissing env disk P nodes) (CalculateInstallSizeOfFileL env' node)
      (CalculateInstallSizeOfFileL env node) := by
    intro node nodes hnode s hs
    have hsame := h node hnode.1 s hs
    exact ⟨hsame, (sameDisk_memoryFrame.CalculateInstallSizeOfFileL env' node s).trans hs,
      fun size hok => hnode.next env hs (hsame ▸ hok)⟩
  exact (estimateLoop_agree hagree (fun _ _ hnode => hnode.skip env) _ 0 _ hnodes s hs).1

theorem CompressFiles_withMemory (w : SISWriter) (nodes : List PkgLineNode) :
    CompressFiles (env.withMemory memory hmemory) w nodes = CompressFiles env w nodes := by
  induction nodes with
  | nil => rfl
  | cons node nodes ih =>
    unfold CompressFiles
    rw [ih]
    rcases node.code? with _ | f
    · rfl
    · simp only [TempFileName_withMemory]
      rfl

/-- The preparations, on two hosts that do the same with each text file, each size and each compressed file. -/
theorem prepare_congr {env env' : Env} {w : SISWriter} {m_stubFile : Bool} {P : PkgLineFile → State → Prop}
    {Q : (WString → Option Bytes) → PkgLineNode → Prop}
    (hcheck : ∀ converted f s, P f s → checkTextFile env' converted f s = checkTextFile env converted f s)
    (hsize : ∀ disk node, Q disk node → ∀ s : State, s.disk = disk →
      CalculateInstallSizeOfFileL env' node s = CalculateInstallSizeOfFileL env node s)
    (hcompress : ∀ w nodes, CompressFiles env' w nodes = CompressFiles env w nodes)
    (htexts : w.sizeOfChar ≠ 1 ∧ ¬ m_stubFile → EachText env P false w.pkgLines s)
    (hcomponents : Run.After (convertTexts env w m_stubFile)
      (fun w' s' => UntilMissing env s'.disk (Q s'.disk) w'.pkgLines.reverse) s) :
    prepare env' w m_stubFile s = prepare env w m_stubFile s := by
  have hconvert : convertTexts env' w m_stubFile s = convertTexts env w m_stubFile s := by
    unfold convertTexts
    by_cases hconvert : w.sizeOfChar ≠ 1 ∧ ¬ m_stubFile
    · rw [if_pos hconvert, if_pos hconvert]
      exact Run.bind_congr_at (CheckUnicodeTextFiles_congr env hcheck false _ (htexts hconvert)) fun _ _ _ => rfl
    · rw [if_neg hconvert, if_neg hconvert]
  rw [prepare_eq, prepare_eq]
  refine Run.bind_congr_at hconvert fun w' s' hconverted => ?_
  rw [hconvert] at hconverted
  have hestimate := EstimateInstallationSizeL_congr env (hsize s'.disk) w' (hcomponents w' s' hconverted) rfl
  refine Run.bind_congr_at hestimate fun size s'' _ => ?_
  dsimp only
  rw [hcompress]

/-! ### The blocks -/

/-- A condition without a variable or a number: the record of a primitive has a second word only for a string. -/
def Wordless : PkgLineCondition → Prop
  | .binary _ pLhs pRhs => Wordless pLhs ∧ Wordless pRhs
  | .EInstCondFuncExists arg => Wordless arg
  | .EInstCondFuncDevCap arg => Wordless arg
  | .EInstCondFuncAppCap arg₀ arg₁ => Wordless arg₀ ∧ Wordless arg₁
  | .EInstCondUnaryOpNot pExpr => Wordless pExpr
  | .EInstCondPrimTypeString _ => True
  | .EInstCondPrimTypeVariable _ => False
  | .EInstCondPrimTypeNumber _ => False

/-- The condition of a line, if it has one. -/
def PkgLineNode.cond? : PkgLineNode → Option PkgLineCondition
  | EInstPkgLineCondIf cond => some cond
  | EInstPkgLineCondElseIf cond => some cond
  | _ => none

variable (w : SISWriter)

theorem WriteCondExprL_withMemory {expr : PkgLineCondition} (h : Wordless expr) :
    WriteCondExprL (env.withMemory memory hmemory) w expr = WriteCondExprL env w expr := by
  induction expr with
  | binary op pLhs pRhs ihLhs ihRhs =>
    rw [WriteCondExprL, WriteCondExprL, ihLhs h.1, ihRhs h.2]
    rfl
  | EInstCondFuncExists arg ih =>
    rw [WriteCondExprL, WriteCondExprL, ih h]
    rfl
  | EInstCondFuncDevCap arg ih =>
    rw [WriteCondExprL, WriteCondExprL, ih h]
    rfl
  | EInstCondFuncAppCap arg₀ arg₁ ih₀ ih₁ =>
    rw [WriteCondExprL, WriteCondExprL, ih₀ h.1, ih₁ h.2]
    rfl
  | EInstCondUnaryOpNot pExpr ih =>
    rw [WriteCondExprL, WriteCondExprL, ih h]
    rfl
  | EInstCondPrimTypeString psz => rfl
  | EInstCondPrimTypeVariable n => exact h.elim
  | EInstCondPrimTypeNumber n => exact h.elim

theorem writeOptionsLoop_withMemory (i : ℕ) (strings : List WString) :
    writeOptionsLoop (env.withMemory memory hmemory) w i strings = writeOptionsLoop env w i strings := by
  induction i generalizing strings with
  | zero => rfl
  | succ i ih =>
    rw [writeOptionsLoop, writeOptionsLoop, ih]
    rfl

theorem writePkgLine_withMemory {pNode : Place} (h : ∀ cond, pNode.node.cond? = some cond → Wordless cond) :
    writePkgLine (env.withMemory memory hmemory) w pNode = writePkgLine env w pNode := by
  rcases pNode with ⟨node, next⟩
  apply Run.bind_congr' rfl
  intro _
  cases node with
  | EInstPkgLineFile f => rfl
  | EInstPkgLineLanguageFile f => rfl
  | EInstPkgLineOption option =>
    simp only [WriteOptionsNodeL, writeOptionsLoop_withMemory]
    rfl
  | EInstPkgLineCondIf cond =>
    simp only [writeCondition, WriteCondExprL_withMemory env memory hmemory w (h cond rfl)]
    rfl
  | EInstPkgLineCondElseIf cond =>
    simp only [writeCondition, WriteCondExprL_withMemory env memory hmemory w (h cond rfl)]
    rfl
  | EInstPkgLineCondElse => rfl
  | EInstPkgLineCondEndIf => rfl

theorem WriteLanguageL_withMemory :
    WriteLanguageL (env.withMemory memory hmemory) w = WriteLanguageL env w := by
  funext s
  rw [WriteLanguageL, WriteLanguageL, uninitialised_bind, uninitialised_bind]
  apply congrFun
  split
  · rfl
  · next hcount =>
    have hle : w.noLanguages.toNat ≤ w.langs.length := by
      rw [SISWriter.noLanguages, UInt16.toNat_ofNat']
      exact Nat.mod_le _ _
    have hrest : ∀ pLang : Bytes, pLang.length = 2 * w.noLanguages.toNat → pLang.drop (2 * w.langs.length) = [] := by
      intro pLang hlen
      apply List.drop_eq_nil_of_le
      omega
    rw [hrest _ (env.length_memory _ _), hrest _ (Env.length_memory _ _ _)]
    rfl

theorem WriteCondExprStrL_withMemory (expr : PkgLineCondition) :
    WriteCondExprStrL (env.withMemory memory hmemory) w expr = WriteCondExprStrL env w expr := by
  induction expr with
  | binary op pLhs pRhs ihLhs ihRhs => rw [WriteCondExprStrL, WriteCondExprStrL, ihLhs, ihRhs]
  | EInstCondFuncExists arg ih => rw [WriteCondExprStrL, WriteCondExprStrL, ih]
  | EInstCondFuncDevCap arg ih => rw [WriteCondExprStrL, WriteCondExprStrL, ih]
  | EInstCondFuncAppCap arg₀ arg₁ ih₀ ih₁ => rw [WriteCondExprStrL, WriteCondExprStrL, ih₀, ih₁]
  | EInstCondUnaryOpNot pExpr ih => rw [WriteCondExprStrL, WriteCondExprStrL, ih]
  | EInstCondPrimTypeString psz => rfl
  | EInstCondPrimTypeVariable n => rfl
  | EInstCondPrimTypeNumber n => rfl

theorem writeLineStrings_withMemory (pNode : Place) :
    writeLineStrings (env.withMemory memory hmemory) w pNode = writeLineStrings env w pNode := by
  rcases pNode with ⟨node, next⟩
  cases node with
  | EInstPkgLineCondIf cond => exact WriteCondExprStrL_withMemory env memory hmemory w cond
  | EInstPkgLineCondElseIf cond => exact WriteCondExprStrL_withMemory env memory hmemory w cond
  | _ => rfl

theorem namePositions_length {strings : List WString} {entries : List (UInt32 × UInt32)} {s s' : State}
    (h : namePositions w strings s = (.ok entries, s')) : entries.length = strings.length := by
  induction strings generalizing s s' entries with
  | nil =>
    simp only [namePositions, Run.pure_apply, Prod.mk.injEq, Except.ok.injEq] at h
    rw [← h.1]
    rfl
  | cons psz rest ih =>
    obtain ⟨_, _, _, h⟩ := Run.ok_of_bind h
    obtain ⟨_, _, _, h⟩ := Run.ok_of_bind h
    obtain ⟨tail, _, hrest, h⟩ := Run.ok_of_bind h
    simp only [Run.pure_apply, Prod.mk.injEq, Except.ok.injEq] at h
    rw [← h.1, List.length_cons, List.length_cons, ih hrest]

theorem flippedArray_full {values : List UInt32} {array : Bytes} (h : array.length ≤ 4 * values.length) :
    flippedArray env values array = values.flatMap fun v => env.order.bytes32 (env.order.flip32 v) := by
  rw [flippedArray, List.drop_eq_nil_of_le h]
  have hnil : ∀ n, flippedArray.flipRest env n [] = [] := by
    intro n
    cases n with
    | zero => rfl
    | succ n => rfl
  rw [hnil, List.append_nil]

/-- The strings, in two environments in which each of them is written alike. -/
theorem WriteStringsL_congr {env env' : Env} {w : SISWriter} {lines : List Place}
    (hnamed : w.noLanguages.toNat ≤ w.langStrings.length)
    (hlines : Run.each (writeLineStrings env' w) lines = Run.each (writeLineStrings env w) lines)
    (hdepends : Run.each (fun d => Run.each (WriteString env' w) d.langStrings) w.depends =
      Run.each (fun d => Run.each (WriteString env w) d.langStrings) w.depends)
    (hnames : Run.each (WriteString env' w) w.langStrings = Run.each (WriteString env w) w.langStrings) :
    WriteStringsL env' w lines = WriteStringsL env w lines := by
  funext s
  rw [WriteStringsL, WriteStringsL, uninitialised_bind, uninitialised_bind, uninitialised_bind, uninitialised_bind]
  apply congrFun
  split
  · rfl
  · funext s'
    refine Run.bind_congr_at rfl fun entries s'' hentries => ?_
    have hlen := namePositions_length w hentries
    have hfull : ∀ (env : Env) (values : List UInt32) (array : Bytes), values.length = entries.length →
        array.length = 4 * w.noLanguages.toNat →
        flippedArray env values array = values.flatMap fun v => leBytes 4 v.toNat := by
      intro env values array hvalues harray
      rw [flippedArray_full _ (by omega)]
      simp only [ByteOrder.bytes32_flip32]
    dsimp only
    rw [hfull _ _ _ (List.length_map _) (Env.length_memory _ _ _), hfull _ _ _ (List.length_map _) (Env.length_memory _ _ _),
      hfull _ _ _ (List.length_map _) (Env.length_memory _ _ _), hfull _ _ _ (List.length_map _) (Env.length_memory _ _ _),
      hlines, hdepends, hnames]

theorem WriteStringsL_withMemory (lines : List Place) (h : w.noLanguages.toNat ≤ w.langStrings.length) :
    WriteStringsL (env.withMemory memory hmemory) w lines = WriteStringsL env w lines :=
  WriteStringsL_congr h (by rw [funext (writeLineStrings_withMemory env memory hmemory w)]) rfl rfl

/-- A source that holds all the bytes which are written of it. -/
def CodeSettled (target : WString) (f : PkgLineFile) (s : State) : Prop :=
  Holding env f.pszSource (fun bytes =>
    f.dwSize.toNat ≤ (if sisFile env f.pszSource = target then s.out else bytes).length) s

theorem writeCode_withMemory (target : WString) (f : PkgLineFile) (h : CodeSettled env target f s) :
    writeCode (env.withMemory memory hmemory) target f s = writeCode env target f s := by
  refine openSource_bind_congr env fun bytes hbytes => ?_
  rw [uninitialised_bind, uninitialised_bind]
  have hread : contentsBeside target (sisFile env f.pszSource) { s with allocated := s.allocated + 1 } =
      (.ok (if sisFile env f.pszSource = target then s.out else bytes), { s with allocated := s.allocated + 1 }) := by
    rw [contentsBeside, Run.read_apply, hbytes, Option.getD_some]
  have hlen := h bytes hbytes
  have hrest : ∀ pBuf : Bytes, pBuf.length = f.dwSize.toNat → pBuf.drop
      ((if sisFile env f.pszSource = target then s.out else bytes).take f.dwSize.toNat).length = [] := by
    intro pBuf hpBuf
    apply List.drop_eq_nil_of_le
    rw [List.length_take]
    omega
  rw [Run.bind_ok hread, Run.bind_ok hread, hrest _ (env.length_memory _ _),
    hrest _ (Env.length_memory _ _ _)]
  rfl

end

/-! ### The whole run -/

/-- The state with the output file emptied. -/
def emptied (env : Env) (target : WString) (s : State) : State :=
  { s with disk := Function.update s.disk (sisFile env target) (some []), out := [] }

/-- What follows the preparation of the files. -/
def writePrepared (env : Env) (target : WString) (m_stubFile : Bool) (prepared : SISWriter × UInt32) : Gen Unit :=
  match places prepared.1.noLanguages.toNat 0 prepared.1.pkgLines with
  | none => Run.stop .undefined
  | some lines => writeBlocks env prepared.1 (sisFile env target) lines prepared.2 m_stubFile

theorem GenerateSISFile_apply (env : Env) (w : SISWriter) (target : WString) (m_stubFile : Bool) (s : State) :
    GenerateSISFile env w target m_stubFile s =
      (prepare env w m_stubFile >>= writePrepared env target m_stubFile) (emptied env target s) := rfl

/-- The blocks in front of the lines of the package. -/
def writeFront (env : Env) (w : SISWriter) (lines : List Place) (m_dwMaximumSpaceNeeded : UInt32) (m_stubFile : Bool) :
    Gen Unit := do
  setCheck 0
  WriteHeaderL env w lines (CalculateOffsets w lines) m_dwMaximumSpaceNeeded m_stubFile
  WriteLanguageL env w

/-- The blocks from the lines of the package to the capabilities. -/
def writeTables (env : Env) (w : SISWriter) (lines : List Place) : Gen Unit := do
  WritePkgLinesL env w lines
  WriteDependL env w
  WriteCapabilitiesL env w

theorem writeBlocks_parts (env : Env) (w : SISWriter) (target : WString) (lines : List Place)
    (m_dwMaximumSpaceNeeded : UInt32) (m_stubFile : Bool) :
    writeBlocks env w target lines m_dwMaximumSpaceNeeded m_stubFile = (do
      (do
        (do
          writeFront env w lines m_dwMaximumSpaceNeeded m_stubFile
          writeTables env w lines)
        WriteStringsL env w lines)
      (if m_stubFile then pure () else WriteCodeL env w target)
      WriteCrcL env) := by
  rw [writeBlocks_eq, writeBody, writeRecords]
  simp only [writeFront, writeTables, Run.bind_assoc]

/-- What holds when the files are prepared and their lines found. -/
def AfterPrepare (env : Env) (w : SISWriter) (m_stubFile : Bool) (Q : SISWriter → List Place → UInt32 → State → Prop) :
    State → Prop :=
  Run.After (prepare env w m_stubFile) fun prepared s' => ∀ lines,
    places prepared.1.noLanguages.toNat 0 prepared.1.pkgLines = some lines → Q prepared.1 lines prepared.2 s'

/-- No block that is written has memory in it: no condition has a variable or a number, each language has a name, and
every source holds the bytes that are written of it. -/
structure BlocksSettled (env : Env) (target : WString) (m_stubFile : Bool) (w : SISWriter) (lines : List Place)
    (m_dwMaximumSpaceNeeded : UInt32) (s : State) : Prop where
  wordless : Run.After (writeFront env w lines m_dwMaximumSpaceNeeded m_stubFile) (fun _ => Run.Turns (writePkgLine env w)
    (fun pNode _ => ∀ cond, pNode.node.cond? = some cond → Wordless cond) lines) s
  named : Run.After (do
      writeFront env w lines m_dwMaximumSpaceNeeded m_stubFile
      writeTables env w lines) (fun _ _ => w.noLanguages.toNat ≤ w.langStrings.length) s
  codes : ¬ m_stubFile → Run.After (do
      (do
        writeFront env w lines m_dwMaximumSpaceNeeded m_stubFile
        writeTables env w lines)
      WriteStringsL env w lines)
    (fun _ => Run.Turns (writeCode env target) (CodeSettled env target) (w.pkgLines.filterMap PkgLineNode.code?)) s

/-- No step to which the run comes passes on memory that is not initialised. -/
structure Initialised (env : Env) (w : SISWriter) (target : WString) (m_stubFile : Bool) (s : State) : Prop where
  texts : w.sizeOfChar ≠ 1 ∧ ¬ m_stubFile → EachText env (fun f => Holding env f.pszSource (TextSettled env.order)) false
    w.pkgLines (emptied env target s)
  components : Run.After (convertTexts env w m_stubFile) (fun w' s' =>
    UntilMissing env s'.disk (ComponentSettled env s'.disk) w'.pkgLines.reverse) (emptied env target s)
  blocks : AfterPrepare env w m_stubFile (BlocksSettled env (sisFile env target) m_stubFile) (emptied env target s)

section
variable (env : Env) (memory : ℕ → ℕ → Bytes) (hmemory : ∀ k n, (memory k n).length = n) (w : SISWriter)
  (target : WString) (m_stubFile : Bool)

theorem prepare_withMemory {s : State} (h : Initialised env w target m_stubFile s) :
    prepare (env.withMemory memory hmemory) w m_stubFile (emptied env target s) =
      prepare env w m_stubFile (emptied env target s) :=
  prepare_congr (fun converted f _ hs => checkTextFile_withMemory env memory hmemory converted f hs)
    (fun _ _ hnode _ hs => CalculateInstallSizeOfFileL_withMemory env memory hmemory hnode hs)
    (CompressFiles_withMemory env memory hmemory) h.texts h.components

theorem writeFront_withMemory (lines : List Place) (m_dwMaximumSpaceNeeded : UInt32) :
    writeFront (env.withMemory memory hmemory) w lines m_dwMaximumSpaceNeeded m_stubFile =
      writeFront env w lines m_dwMaximumSpaceNeeded m_stubFile := by
  rw [writeFront, writeFront, WriteLanguageL_withMemory]
  rfl

/-- Blocks without a leak are the same for any two memories. -/
theorem writeBlocks_withMemory {lines : List Place} {m_dwMaximumSpaceNeeded : UInt32} {s : State}
    (h : BlocksSettled env target m_stubFile w lines m_dwMaximumSpaceNeeded s) :
    writeBlocks (env.withMemory memory hmemory) w target lines m_dwMaximumSpaceNeeded m_stubFile s =
      writeBlocks env w target lines m_dwMaximumSpaceNeeded m_stubFile s := by
  have hfront := writeFront_withMemory env memory hmemory w m_stubFile lines m_dwMaximumSpaceNeeded
  have htables : (writeFront (env.withMemory memory hmemory) w lines m_dwMaximumSpaceNeeded m_stubFile >>= fun _ =>
      writeTables (env.withMemory memory hmemory) w lines) s =
      (writeFront env w lines m_dwMaximumSpaceNeeded m_stubFile >>= fun _ => writeTables env w lines) s := by
    rw [hfront]
    refine Run.bind_congr_at rfl fun _ s' hs' => ?_
    refine Run.bind_congr_at ?_ fun _ _ _ => rfl
    exact Run.each_congr_at (fun pNode _ hp => congrFun (writePkgLine_withMemory env memory hmemory w hp) _)
      (h.wordless _ s' hs')
  rw [writeBlocks_parts, writeBlocks_parts]
  have hstrings := Run.bind_congr_at htables (f := fun _ => WriteStringsL (env.withMemory memory hmemory) w lines)
    (g := fun _ => WriteStringsL env w lines) fun _ s' hs' => by
      rw [WriteStringsL_withMemory _ _ _ _ _ (h.named _ s' (htables ▸ hs'))]
  refine Run.bind_congr_at hstrings fun _ s' hs' => ?_
  refine Run.bind_congr_at ?_ fun _ _ _ => rfl
  by_cases hstub : m_stubFile
  · rw [if_pos hstub, if_pos hstub]
  · rw [if_neg hstub, if_neg hstub]
    exact Run.each_congr_at (fun f _ hf => writeCode_withMemory env memory hmemory target f hf)
      (h.codes hstub _ s' (hstrings ▸ hs'))

end

/-- A file to be made on the device, if `expr` holds. -/
def conditionalPackage (expr : PkgLineCondition) : SISWriter :=
  { samplePackage with pkgLines :=
      [.EInstPkgLineCondEndIf, .EInstPkgLineFile ⟨.EInstFileTypeNull, 0, [], [99, 58, 92, 97], [], 0, 0⟩,
        .EInstPkgLineCondIf expr] }

theorem initialised_sample : Initialised (sampleEnv .little)
    (conditionalPackage (.EInstCondFuncExists (.EInstCondPrimTypeString [97]))) [83] false sampleState where
  texts := fun _ => trivial
  components := by
    intro w' s' h
    obtain ⟨rfl, rfl⟩ : _ = w' ∧ _ = s' := ⟨Except.ok.inj (congrArg Prod.fst h), congrArg Prod.snd h⟩
    refine ⟨?_, fun _ => ⟨?_, fun _ => ⟨?_, fun _ => trivial⟩⟩⟩
    all_goals
      intro f hfile htype
      cases hfile
    cases htype
  blocks := by
    intro prepared s' h lines hlines
    obtain ⟨rfl, rfl⟩ : _ = prepared ∧ _ = s' := ⟨Except.ok.inj (congrArg Prod.fst h), congrArg Prod.snd h⟩
    obtain rfl : _ = lines := Option.some.inj hlines
    refine ⟨fun _ s' _ => Run.Turns.of_forall ?_ s', fun _ _ _ => le_rfl, fun _ _ _ _ => trivial⟩
    refine List.forall_mem_cons.mpr ⟨?_, List.forall_mem_cons.mpr ⟨?_, List.forall_mem_singleton.mpr ?_⟩⟩
    all_goals
      intro _ cond hcond
      cases hcond
    trivial

end GnuPoc.Crtsis
