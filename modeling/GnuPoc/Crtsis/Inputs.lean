import GnuPoc.Crtsis.Memory

/-!
# GnuPoc.Crtsis.Inputs — the files that a run changes (`makesis.cpp`)

A run writes its output and temporary files.  `Kept` says of a state that every file that was there before, but the
output, still holds what it held; a step keeps this where it writes or deletes a file that was not there.
-/

namespace GnuPoc.Crtsis

open GnuPoc.Lib

/-! ### `CMakeSIS` -/

section
variable (env : Env) (parse : (WString → Option Bytes) → Bytes → Option SISWriter)

/-- `CMakeSIS::ParseSource`.  `parse` is what the parser makes of the PKG file and of the files it finds; it only reads,
and `none` is one of its exceptions, which are caught. -/
def ParseSource (sourceFile : WString) : Gen (Option SISWriter) := do
  let (isUnicode, littleEndian) ← FileIsUnicode env sourceFile
  let (pszTempSource, converted) ← (
    if ¬ isUnicode then do
      let pszTempSource ← ConvertFileToUnicode env sourceFile
      pure (pszTempSource, true)
    else if ¬ littleEndian then do
      let pszTempSource ← ConvertFileToLittleEndianUnicode env sourceFile
      pure (pszTempSource, true)
    else pure (sourceFile, false))
  let file ← openSource env pszTempSource
  let bytes ← contents file
  let writer ← Run.read fun s => parse s.disk bytes
  (if converted then wunlink env pszTempSource else pure ())
  pure writer

/-- `CMakeSIS::Run`. -/
def makesis (sourceFile targetFile : WString) (stubFile : Bool) : Gen Unit := do
  let writer ← ParseSource env parse sourceFile
  match writer with
  | none => pure ()
  | some w => GenerateSISFile env w targetFile stubFile

end

/-! ### The choice of the file -/

section
variable (env : Env)

/-- The file that is read in the place of `fileName`, and whether it is a converted one. -/
def sourceFileUsed (fileName : WString) : Gen (WString × Bool) := do
  let (isUnicode, littleEndian) ← FileIsUnicode env fileName
  if ¬ isUnicode then do
    let pszTempSource ← ConvertFileToUnicode env fileName
    pure (pszTempSource, true)
  else if ¬ littleEndian then do
    let pszTempSource ← ConvertFileToLittleEndianUnicode env fileName
    pure (pszTempSource, true)
  else pure (fileName, false)

/-- `ParseSource` reads the file that has been chosen. -/
theorem ParseSource_eq (parse : (WString → Option Bytes) → Bytes → Option SISWriter) (sourceFile : WString) :
    ParseSource env parse sourceFile = (do
      let used ← sourceFileUsed env sourceFile
      let file ← openSource env used.1
      let bytes ← contents file
      let writer ← Run.read fun s => parse s.disk bytes
      (if used.2 then wunlink env used.1 else pure ())
      pure writer) := by
  rw [ParseSource, sourceFileUsed, Run.bind_assoc]

theorem checkTextFile_eq (converted : Bool) (f : PkgLineFile) : checkTextFile env converted f = (do
      let used ← sourceFileUsed env f.pszSource
      let file ← openSource env used.1
      let bytes ← contents file
      pure (converted || used.2, if converted || used.2 then
        { f with pszSource := used.1, dwSize := UInt32.ofNat bytes.length } else { f with pszSource := used.1 })) := by
  rw [checkTextFile, sourceFileUsed, Run.bind_assoc]
  apply Run.bind_congr' rfl
  rintro ⟨_ | _, _ | _⟩
  · simp only [Bool.false_eq_true, not_false_eq_true, if_true, Run.bind_assoc, Run.pure_bind, Bool.or_true]
  · simp only [Bool.false_eq_true, not_false_eq_true, if_true, Run.bind_assoc, Run.pure_bind, Bool.or_true]
  · simp only [Bool.false_eq_true, not_false_eq_true, if_true, Run.bind_assoc, Run.pure_bind, Bool.or_true,
      not_true_eq_false, if_false]
  · simp only [not_true_eq_false, if_false, Run.pure_bind, Bool.or_false]

end

/-! ### What is kept -/

section
variable (s₀ : State) (T : WString → Prop)

/-- Every file of `s₀` outside of `T` holds what it held. -/
def Kept (s : State) : Prop :=
  ∀ file bytes, s₀.disk file = some bytes → ¬ T file → s.disk file = some bytes

/-- A file that the run may write and delete. -/
def Free (file : WString) : Prop := s₀.disk file = none ∨ T file

variable {s₀ T}

theorem Kept.mono {T' : WString → Prop} {s : State} (h : Kept s₀ T s) (hT : ∀ file, T file → T' file) : Kept s₀ T' s :=
  fun file bytes hfile hnot => h file bytes hfile fun hfileT => hnot (hT file hfileT)

theorem Kept.set {s : State} {file : WString} (h : Kept s₀ T s) (hfree : Free s₀ T file)
    (bytes : Option Bytes) : Kept s₀ T { s with disk := Function.update s.disk file bytes } := by
  intro other b hother hnot
  have hdiffer : other ≠ file := by
    rintro rfl
    rcases hfree with hnone | hT
    · rw [hnone] at hother
      simp at hother
    · exact hnot hT
  exact (Function.update_of_ne hdiffer _ _).trans (h other b hother hnot)

variable (s₀ T)

/-- What is kept before a step is kept after it. -/
def Keeping (s s' : State) : Prop := Kept s₀ T s → Kept s₀ T s'

theorem keeping : RecordFrame (Keeping s₀ T) where
  refl _ := id
  trans _ _ _ h h' := h' ∘ h
  allocate _ := id
  string _ _ := id
  code _ _ := id
  record _ _ := id

variable {s₀ T}

theorem keeps_setContents {file : WString} (hfree : Free s₀ T file) (bytes : Option Bytes) :
    Run.Keeps (Keeping s₀ T) (setContents file bytes) := fun _ h => h.set hfree bytes

end

/-! ### Temporary files -/

section
variable (env : Env)

/-- The name that is found is the first free one, or the last that is tried. -/
theorem findTemp_apply (fileName : WString) (n i : ℕ) (s : State) :
    ∃ j ≤ n, findTemp env fileName n i s = (.ok (tempName env fileName (i + j)), s) ∧
      (∀ k < j, (s.disk (sisFile env (tempName env fileName (i + k)))).isSome) ∧
      (j < n → s.disk (sisFile env (tempName env fileName (i + j))) = none) := by
  induction n generalizing i with
  | zero => exact ⟨0, le_rfl, rfl, fun k hk => absurd hk (Nat.not_lt_zero k), fun hn => absurd hn (Nat.lt_irrefl 0)⟩
  | succ n ih =>
    rw [findTemp]
    rcases hfile : s.disk (sisFile env (tempName env fileName i)) with _ | bytes
    · refine ⟨0, Nat.zero_le _, ?_, fun k hk => absurd hk (Nat.not_lt_zero k), fun _ => hfile⟩
      simp [openExisting, Run.bind_apply, hfile]
    · obtain ⟨j, hle, hj, hbefore, hat⟩ := ih (i + 1)
      refine ⟨j + 1, Nat.succ_le_succ hle, ?_, ?_, ?_⟩
      · simp only [openExisting, Run.bind_apply, Run.read_apply, hfile, Option.isSome_some, if_true]
        rw [hj, Nat.add_right_comm, Nat.add_assoc]
      · intro k hk
        rcases k with _ | k
        · rw [Nat.add_zero, hfile]
          rfl
        · have hstep := hbefore k (Nat.lt_of_succ_lt_succ hk)
          rwa [Nat.add_right_comm, Nat.add_assoc] at hstep
      · intro hn
        have hstep := hat (Nat.lt_of_succ_lt_succ hn)
        rwa [Nat.add_right_comm, Nat.add_assoc] at hstep

theorem sisFile_of_slashless {name : WString} (h : 47 ∉ name) : sisFile env name = env.fileOf name := by
  unfold sisFile
  split
  · simp at h
  · rfl

/-- The name of a file that the run may write and delete. -/
def Deletable (s₀ : State) (T : WString → Prop) (name : WString) : Prop := Free s₀ T (env.fileOf name)

/-- The first name that is not in use, or the one behind all that are tried, is the name of a file that the run may write
when its slashes are turned round. -/
def TempFree (s₀ : State) (T : WString → Prop) (fileName : WString) (s : State) : Prop :=
  ∀ j ≤ 10000, (∀ k < j, (s.disk (sisFile env (tempName env fileName k))).isSome) →
    (j < 10000 → s.disk (sisFile env (tempName env fileName j)) = none) →
    Deletable env s₀ T ((tempName env fileName j).map fun c => if c = 47 then 92 else c)

/-- `TempFileName` only looks for files; the name has no slash in it. -/
theorem TempFileName_apply (fileName : WString) (s : State) :
    ∃ temp, TempFileName env fileName s = (.ok temp, s) ∧ sisFile env temp = env.fileOf temp ∧
      ∀ s₀ T, TempFree env s₀ T fileName s → Deletable env s₀ T temp := by
  obtain ⟨j, hle, hj, hbefore, hat⟩ := findTemp_apply env fileName 10000 0 s
  simp only [Nat.zero_add] at hj hbefore hat
  refine ⟨_, Run.bind_ok hj, sisFile_of_slashless env ?_, fun s₀ T hfree => hfree j hle hbefore hat⟩
  intro hmem
  obtain ⟨c, -, hc⟩ := List.mem_map.mp hmem
  split at hc
  · simp at hc
  · next hne => exact hne hc

end

/-! ### What is made under a free name -/

section
variable (env : Env) {s₀ : State} {T : WString → Prop} {α : Type}

variable {name : WString} {s : State}

theorem openSource_leaves (h : Kept s₀ T s) :
    Run.Leaves (Kept s₀ T) (fun _ s' => (∃ bytes, s.disk (sisFile env name) = some bytes) ∧ s' = s)
      (openSource env name) s := by
  rcases hfile : s.disk (sisFile env name) with _ | bytes
  · constructor
    · rw [openSource_none env hfile]
      exact h
    · intro file s' hok
      rw [openSource_none env hfile] at hok
      simp at hok
  · constructor
    · rw [openSource_some env hfile]
      exact h
    · intro file s' hok
      rw [openSource_some env hfile] at hok
      simp only [Prod.mk.injEq, Except.ok.injEq] at hok
      exact ⟨⟨bytes, rfl⟩, hok.2.symm⟩

theorem TempFileName_leaves (h : Kept s₀ T s) (hfree : TempFree env s₀ T name s) :
    Run.Leaves (Kept s₀ T) (fun temp s' => (sisFile env temp = env.fileOf temp ∧ Deletable env s₀ T temp) ∧
      s' = s) (TempFileName env name) s := by
  obtain ⟨temp, htemp, hfile, hdeletable⟩ := TempFileName_apply env name s
  constructor
  · rw [htemp]
    exact h
  · intro temp' s' hok
    rw [htemp] at hok
    simp only [Prod.mk.injEq, Except.ok.injEq] at hok
    rw [← hok.1, ← hok.2]
    exact ⟨⟨hfile, hdeletable s₀ T hfree⟩, rfl⟩

variable {s : State}

theorem setContents_leaves {file : WString} (h : Kept s₀ T s) (hfree : Free s₀ T file)
    (bytes : Option Bytes) : Run.Leaves (Kept s₀ T) (fun _ _ => True) (setContents file bytes) s :=
  .of_keeps (keeps_setContents hfree bytes) h

theorem createNew_leaves (h : Kept s₀ T s) (hfile : sisFile env name = env.fileOf name)
    (hfree : Deletable env s₀ T name) :
    Run.Leaves (Kept s₀ T) (fun file _ => Free s₀ T file) (createNew env name) s := by
  rw [Deletable, ← hfile] at hfree
  apply (setContents_leaves h hfree _).bind
  intro _ s hs _
  exact .pure hs hfree

theorem uninitialised_leaves {n : ℕ} (h : Kept s₀ T s) :
    Run.Leaves (Kept s₀ T) (fun bytes s' => bytes.length = n ∧ s'.disk = s.disk) (uninitialised env n) s := by
  refine ⟨h, fun bytes s' hok => ?_⟩
  obtain rfl : _ = bytes := Except.ok.inj (congrArg Prod.fst hok)
  obtain rfl : _ = s' := congrArg Prod.snd hok
  exact ⟨env.length_memory _ _, rfl⟩

theorem TempFree.same {s s' : State} (h : TempFree env s₀ T name s) (hdisk : s'.disk = s.disk) :
    TempFree env s₀ T name s' := by
  unfold TempFree at h ⊢
  rwa [hdisk]

theorem ConvertFileToUnicode_leaves (h : Kept s₀ T s) (hfree : TempFree env s₀ T name s) :
    Run.Leaves (Kept s₀ T) (fun temp _ => Deletable env s₀ T temp) (ConvertFileToUnicode env name) s := by
  apply (openSource_leaves env h).bind
  rintro file s hs ⟨-, rfl⟩
  apply (Run.Leaves.read hs _).bind
  rintro bytes s hs ⟨-, rfl⟩
  apply (uninitialised_leaves env hs).bind
  rintro pNarrowBuf s' hs' ⟨-, hdisk⟩
  apply (TempFileName_leaves env hs' (hfree.same env hdisk)).bind
  rintro temp s hs ⟨⟨hfile, htemp⟩, rfl⟩
  apply (createNew_leaves env hs hfile htemp).bind
  intro file s hs hfree
  apply (uninitialised_leaves env hs).bind
  intro pBufU s hs _
  split
  · apply (setContents_leaves hs hfree _).bind
    intro _ s hs _
    exact .pure hs htemp
  · exact .stop hs _
  · exact .stop hs _

/-- The buffer for the words of a file takes all its bytes. -/
def WordsFit (bytes : Bytes) : Prop := GetFileSize bytes ≤ 4 * (GetFileSize bytes / 2)

theorem ConvertFileToLittleEndianUnicode_leaves {bytes : Bytes} (h : Kept s₀ T s)
    (hfile : s.disk (sisFile env name) = some bytes) (hfree : WordsFit bytes → TempFree env s₀ T name s) :
    Run.Leaves (Kept s₀ T) (fun temp _ => Deletable env s₀ T temp)
      (ConvertFileToLittleEndianUnicode env name) s := by
  refine Run.Leaves.of_eq (Run.bind_ok (openSource_some env hfile)) ?_
  apply (Run.Leaves.read h _).bind
  rintro _ s hs ⟨rfl, rfl⟩
  rw [hfile, Option.getD_some]
  apply (uninitialised_leaves env hs).bind
  rintro pBuf s' hs' ⟨hlen, hdisk⟩
  split
  · exact .stop hs' _
  · next hfits =>
    have hle : WordsFit bytes := by
      rw [WordsFit, ← hlen]
      exact Nat.le_of_not_lt hfits
    apply (TempFileName_leaves env hs' ((hfree hle).same env hdisk)).bind
    rintro temp s hs ⟨⟨hfile, htemp⟩, rfl⟩
    apply (createNew_leaves env hs hfile htemp).bind
    intro file s hs hfree
    apply (setContents_leaves hs hfree _).bind
    intro _ s hs _
    exact .pure hs htemp

/-- For a text file that gets a temporary one, the name of that is free: the file has no mark, or that of the other
order and a buffer large enough. -/
def TextFree (s₀ : State) (T : WString → Prop) (name : WString) (s : State) : Prop :=
  Holding env name (fun bytes => (textMark env.order bytes).1 = false ∨
    textMark env.order bytes = (true, false) ∧ WordsFit bytes → TempFree env s₀ T name s) s

/-- The file that is used is the given one, or a temporary that may be deleted. -/
theorem sourceFileUsed_leaves (h : Kept s₀ T s) (htext : TextFree env s₀ T name s) :
    Run.Leaves (Kept s₀ T) (fun used _ => if used.2 then Deletable env s₀ T used.1 else used.1 = name)
      (sourceFileUsed env name) s := by
  rcases hfile : s.disk (sisFile env name) with _ | bytes
  · have hstop : sourceFileUsed env name s = (.error .ErrCannotOpenFile, s) :=
      Run.bind_error (Run.bind_error (openSource_none env hfile))
    refine ⟨hstop ▸ h, fun used s' hok => ?_⟩
    rw [hstop] at hok
    simp at hok
  · have hfree : (textMark env.order bytes).1 = false ∨ textMark env.order bytes = (true, false) ∧ WordsFit bytes →
        TempFree env s₀ T name s := htext bytes hfile
    refine Run.Leaves.of_eq (Run.bind_ok (FileIsUnicode_apply env hfile)) ?_
    rcases hmark : textMark env.order bytes with ⟨_ | _, _ | _⟩
    all_goals rw [hmark] at hfree
    all_goals
      simp only [Bool.false_eq_true, not_false_eq_true, if_true, not_true_eq_false, if_false]
    · apply (ConvertFileToUnicode_leaves env h (hfree (.inl rfl))).bind
      intro temp s hs hdeletable
      exact .pure hs hdeletable
    · apply (ConvertFileToUnicode_leaves env h (hfree (.inl rfl))).bind
      intro temp s hs hdeletable
      exact .pure hs hdeletable
    · apply (ConvertFileToLittleEndianUnicode_leaves env h hfile fun hfits => hfree (.inr ⟨rfl, hfits⟩)).bind
      intro temp s hs hdeletable
      exact .pure hs hdeletable
    · exact .pure h rfl

/-! ### The preparation -/

/-- A name of the package. -/
def Named (w : SISWriter) (name : WString) : Prop := ∃ node ∈ w.pkgLines, ∃ f, node.file? = some f ∧ f.pszSource = name

/-- The files of the lines have the names of the package `w`, or names of files that the run may delete. -/
def Known (s₀ : State) (T : WString → Prop) (w : SISWriter) (nodes : List PkgLineNode) : Prop :=
  ∀ node ∈ nodes, ∀ f, node.file? = some f → Named w f.pszSource ∨ Deletable env s₀ T f.pszSource

variable {w : SISWriter} {m_stubFile : Bool}

theorem checkTextFile_leaves (converted : Bool) {f : PkgLineFile} (h : Kept s₀ T s)
    (htext : TextFree env s₀ T f.pszSource s) :
    Run.Leaves (Kept s₀ T) (fun checked _ => checked.2.pszSource = f.pszSource ∨ Deletable env s₀ T checked.2.pszSource)
      (checkTextFile env converted f) s := by
  rw [checkTextFile_eq]
  apply (sourceFileUsed_leaves env h htext).bind
  intro used s hs hused
  apply (openSource_leaves env hs).bind
  rintro file s hs ⟨-, rfl⟩
  apply (Run.Leaves.read hs _).bind
  rintro bytes s hs ⟨-, rfl⟩
  apply Run.Leaves.pure hs
  have hname : used.1 = f.pszSource ∨ Deletable env s₀ T used.1 := by
    split at hused
    · exact .inr hused
    · exact .inl hused
  split
  · exact hname
  · exact hname

theorem file?_withFile {node : PkgLineNode} {f f' g : PkgLineFile} (hfile : node.file? = some f)
    (h : (node.withFile f').file? = some g) : g = f' := by
  cases node with
  | EInstPkgLineFile _ => exact (Option.some.inj h).symm
  | EInstPkgLineLanguageFile _ => exact (Option.some.inj h).symm
  | _ => simp [PkgLineNode.file?] at hfile

theorem Known.cons {node : PkgLineNode} {nodes : List PkgLineNode} (h : Known env s₀ T w nodes)
    (hnode : ∀ f, node.file? = some f → Named w f.pszSource ∨ Deletable env s₀ T f.pszSource) :
    Known env s₀ T w (node :: nodes) := List.forall_mem_cons.mpr ⟨hnode, h⟩

/-- Converting creates temporary files only under free names. -/
theorem CheckUnicodeTextFiles_leaves (converted : Bool) (nodes : List PkgLineNode) (h : Kept s₀ T s)
    (htexts : EachText env (fun f => TextFree env s₀ T f.pszSource) converted nodes s) (hknown : Known env s₀ T w nodes) :
    Run.Leaves (Kept s₀ T) (fun nodes _ => Known env s₀ T w nodes) (CheckUnicodeTextFiles env converted nodes) s := by
  induction nodes generalizing converted s with
  | nil => exact .pure h hknown
  | cons node nodes ih =>
    obtain ⟨hnode, hrest⟩ := List.forall_mem_cons.mp hknown
    unfold CheckUnicodeTextFiles
    rw [EachText] at htexts
    rcases hfile : node.file? with _ | f
    · rw [hfile] at htexts
      apply (ih converted h htexts hrest).bind
      intro nodes s hs hnodes
      exact .pure hs (hnodes.cons env hnode)
    · rw [hfile] at htexts
      by_cases htype : f.type = .EInstFileTypeText
      · simp only [htype, if_true] at htexts ⊢
        have hchecked := checkTextFile_leaves env converted h htexts.1
        refine Run.Leaves.bind ⟨hchecked.state, fun checked s' hok => And.intro (hchecked.result checked s' hok)
          (htexts.2 checked s' hok)⟩ ?_
        rintro ⟨converted', f'⟩ s hs ⟨hname, hafter⟩
        apply (ih converted' hs hafter hrest).bind
        intro nodes s hs hnodes
        refine .pure hs (hnodes.cons env fun g hg => ?_)
        rw [file?_withFile hfile hg]
        rcases hname with hsame | hdeletable
        · rw [hsame]
          exact hnode f hfile
        · exact .inr hdeletable
      · simp only [htype, if_false] at htexts ⊢
        apply (ih converted h htexts hrest).bind
        intro nodes s hs hnodes
        exact .pure hs (hnodes.cons env hnode)

/-- What `CompressFiles` does with a file. -/
def compressCode (env : Env) (w : SISWriter) (f : PkgLineFile) : Gen PkgLineFile :=
  let f := { f with dwUncompressedSize := f.dwSize }
  if w.m_wFlags &&& EInstNoCompress = 0 then do
    let pszCompressedFileName ← TempFileName env f.pszSource
    let compressedSize ← CompressFile env f pszCompressedFileName
    pure { f with pszSource := pszCompressedFileName, dwSize := compressedSize }
  else pure f

/-- What holds of every file when it is going to be compressed. -/
def EachCode (env : Env) (w : SISWriter) (P : PkgLineFile → State → Prop) : List PkgLineNode → State → Prop
  | [], _ => True
  | node :: nodes, s =>
    match node.code? with
    | none => EachCode env w P nodes s
    | some f => P f s ∧ Run.After (compressCode env w f) (fun _ s' => EachCode env w P nodes s') s

/-- For a file that is there to be compressed, the name of the compressed one is free. -/
def CodeFree (s₀ : State) (T : WString → Prop) (f : PkgLineFile) (s : State) : Prop :=
  Holding env f.pszSource (fun _ => TempFree env s₀ T f.pszSource s) s

theorem CompressFile_leaves {f : PkgLineFile} {name : WString} (h : Kept s₀ T s)
    (hname : Holding env f.pszSource (fun _ => sisFile env name = env.fileOf name ∧ Deletable env s₀ T name) s) :
    Run.Leaves (Kept s₀ T) (fun _ _ => Deletable env s₀ T name) (CompressFile env f name) s := by
  apply (openSource_leaves env h).bind
  rintro source s hs ⟨⟨bytes, hbytes⟩, rfl⟩
  obtain ⟨hfile, hdeletable⟩ := hname bytes hbytes
  apply (createNew_leaves env hs hfile hdeletable).bind
  intro output s hs hfree
  apply (Run.Leaves.read hs _).bind
  rintro bytes s hs ⟨-, rfl⟩
  split
  · apply (setContents_leaves hs hfree _).bind
    intro _ s hs _
    exact .pure hs hdeletable
  · apply (setContents_leaves hs hdeletable _).bind
    intro _ s hs _
    exact .stop hs _

theorem compressCode_leaves {f : PkgLineFile} (h : Kept s₀ T s)
    (hfree : w.m_wFlags &&& EInstNoCompress = 0 → CodeFree env s₀ T f s) :
    Run.Leaves (Kept s₀ T) (fun f' _ => f'.pszSource = f.pszSource ∨ Deletable env s₀ T f'.pszSource)
      (compressCode env w f) s := by
  unfold compressCode
  dsimp only
  split
  · next hcompress =>
    obtain ⟨temp, htemp, hfile, hdeletable⟩ := TempFileName_apply env f.pszSource s
    refine Run.Leaves.of_eq (Run.bind_ok htemp) ?_
    apply (CompressFile_leaves env h fun bytes hbytes =>
      ⟨hfile, hdeletable s₀ T (hfree hcompress bytes hbytes)⟩).bind
    intro size s hs hdone
    exact .pure hs (.inr hdone)
  · exact .pure h (.inl rfl)

/-- Compressing creates temporary files only under free names. -/
theorem CompressFiles_leaves (w' : SISWriter) (nodes : List PkgLineNode) (h : Kept s₀ T s)
    (hfree : w'.m_wFlags &&& EInstNoCompress = 0 → EachCode env w' (CodeFree env s₀ T) nodes s)
    (hknown : Known env s₀ T w nodes) :
    Run.Leaves (Kept s₀ T) (fun nodes _ => Known env s₀ T w nodes) (CompressFiles env w' nodes) s := by
  induction nodes generalizing s with
  | nil => exact .pure h hknown
  | cons node nodes ih =>
    obtain ⟨hnode, hrest⟩ := List.forall_mem_cons.mp hknown
    unfold CompressFiles
    rcases hcode : node.code? with _ | f
    · have hafter : w'.m_wFlags &&& EInstNoCompress = 0 → EachCode env w' (CodeFree env s₀ T) nodes s := by
        intro hcompress
        have hfirst := hfree hcompress
        rwa [EachCode, hcode] at hfirst
      apply (ih h hafter hrest).bind
      intro nodes s hs hnodes
      exact .pure hs (hnodes.cons env hnode)
    · have hfile : node.file? = some f := (Option.filter_eq_some_iff.mp hcode).1
      have hfirst : w'.m_wFlags &&& EInstNoCompress = 0 → CodeFree env s₀ T f s ∧
          Run.After (compressCode env w' f) (fun _ s' => EachCode env w' (CodeFree env s₀ T) nodes s') s := by
        intro hcompress
        have hfirst := hfree hcompress
        rwa [EachCode, hcode] at hfirst
      have hdone := compressCode_leaves env h fun hcompress => (hfirst hcompress).1
      refine Run.Leaves.bind ⟨hdone.state, fun f' s' hok => And.intro (hdone.result f' s' hok)
        fun hcompress => (hfirst hcompress).2 f' s' hok⟩ ?_
      rintro f' s hs ⟨hname, hafter⟩
      apply (ih hs hafter hrest).bind
      intro nodes s hs hnodes
      refine .pure hs (hnodes.cons env fun g hg => ?_)
      rw [file?_withFile hfile hg]
      rcases hname with hsame | hdeletable
      · rw [hsame]
        exact hnode f hfile
      · exact .inr hdeletable

/-! ### The run -/

/-- A file that still has a name of the package when its contents are written, and is there, was not there before. -/
def Packable (s₀ : State) (T : WString → Prop) (w : SISWriter) (f : PkgLineFile) : State → Prop :=
  Holding env f.pszSource fun _ => Named w f.pszSource → Deletable env s₀ T f.pszSource

/-- No step to which the generator comes writes or deletes a file that it has not made itself. -/
structure Careful (env : Env) (s₀ : State) (w : SISWriter) (target : WString) (m_stubFile : Bool) (s : State) : Prop where
  texts : w.sizeOfChar ≠ 1 ∧ ¬ m_stubFile → EachText env (fun f => TextFree env s₀ (· = sisFile env target) f.pszSource)
    false w.pkgLines (emptied env target s)
  temps : w.m_wFlags &&& EInstNoCompress = 0 →
    Run.After (do
      let w ← convertTexts env w m_stubFile
      let _ ← EstimateInstallationSizeL env w
      pure w) (fun w => EachCode env w (CodeFree env s₀ (· = sisFile env target)) w.pkgLines) (emptied env target s)
  codes : ¬ m_stubFile → AfterPrepare env w m_stubFile (fun w' lines m_dwMaximumSpaceNeeded => Run.After (do
      (do
        writeFront env w' lines m_dwMaximumSpaceNeeded m_stubFile
        writeTables env w' lines)
      WriteStringsL env w' lines)
    fun _ => Run.Turns (writeCode env (sisFile env target)) (Packable env s₀ (· = sisFile env target) w)
      (w'.pkgLines.filterMap PkgLineNode.code?)) (emptied env target s)

theorem convertTexts_leaves (h : Kept s₀ T s)
    (htexts : w.sizeOfChar ≠ 1 ∧ ¬ m_stubFile → EachText env (fun f => TextFree env s₀ T f.pszSource) false w.pkgLines s) :
    Run.Leaves (Kept s₀ T) (fun w' _ => Known env s₀ T w w'.pkgLines) (convertTexts env w m_stubFile) s := by
  have hknown : Known env s₀ T w w.pkgLines := fun node hnode f hf => .inl ⟨node, hnode, f, hf, rfl⟩
  unfold convertTexts
  split
  · next hconvert =>
    apply (CheckUnicodeTextFiles_leaves env false w.pkgLines h (htexts hconvert) hknown).bind
    intro nodes s hs hnodes
    exact .pure hs hnodes
  · exact .pure h hknown

theorem prepare_leaves {pszTargetFile : WString}
    (h : Kept s₀ (· = sisFile env pszTargetFile) (emptied env pszTargetFile s))
    (hcareful : Careful env s₀ w pszTargetFile m_stubFile s) :
    Run.Leaves (Kept s₀ (· = sisFile env pszTargetFile))
      (fun prepared _ => Known env s₀ (· = sisFile env pszTargetFile) w prepared.1.pkgLines)
      (prepare env w m_stubFile) (emptied env pszTargetFile s) := by
  rw [prepare_eq]
  have htexts := convertTexts_leaves env h hcareful.texts
  have htemps := fun hcompress => (hcareful.temps hcompress).bind
  refine Run.Leaves.bind ⟨htexts.state, fun w' s' hok => And.intro (htexts.result w' s' hok) (And.intro
    (convertTexts_same env hok) fun hcompress => (htemps hcompress w' s' hok).bind)⟩ ?_
  rintro w' s₁ hs₁ ⟨hknown, ⟨nodes, hw, _⟩, hafter⟩
  have hestimate : Run.Leaves (Kept s₀ (· = sisFile env pszTargetFile)) (fun _ _ => True)
      (EstimateInstallationSizeL env w') s₁ :=
    .of_keeps ((keeping s₀ _).estimateLoop env _ 0 _) hs₁
  refine Run.Leaves.bind ⟨hestimate.state, fun size s' hok hcompress => hafter hcompress size s' hok w' s' rfl⟩ ?_
  intro size s₂ hs₂ hfree
  have hflags : w'.m_wFlags = w.m_wFlags := by rw [hw]
  apply (CompressFiles_leaves env w' w'.pkgLines hs₂ (fun hcompress => hfree (hflags ▸ hcompress)) hknown).bind
  intro nodes s hs hnodes
  exact .pure hs hnodes

theorem writeCode_kept {f : PkgLineFile} (target : WString) (h : Kept s₀ T s)
    (hfree : Holding env f.pszSource (fun _ => Deletable env s₀ T f.pszSource) s) :
    Kept s₀ T (writeCode env target f s).2 := by
  rcases hfile : s.disk (sisFile env f.pszSource) with _ | bytes
  · rw [writeCode, Run.bind_error (openSource_none env hfile)]
    exact h
  · exact (keeping s₀ T).writeCode env target (fun s hs => hs.set (hfree bytes hfile) none) s h

/-- Writing the file deletes nothing that was there before the run. -/
theorem writeBlocks_leaves {w' : SISWriter} {target : WString} {lines : List Place} {m_dwMaximumSpaceNeeded : UInt32} (h : Kept s₀ T s) (hknown : Known env s₀ T w w'.pkgLines)
    (hcodes : ¬ m_stubFile → Run.After (do
      (do
        writeFront env w' lines m_dwMaximumSpaceNeeded m_stubFile
        writeTables env w' lines)
      WriteStringsL env w' lines) (fun _ => Run.Turns (writeCode env target) (Packable env s₀ T w)
        (w'.pkgLines.filterMap PkgLineNode.code?)) s) :
    Run.Leaves (Kept s₀ T) (fun _ _ => True)
      (writeBlocks env w' target lines m_dwMaximumSpaceNeeded m_stubFile) s := by
  have hframe := keeping s₀ T
  rw [writeBlocks_parts]
  have hfront : Run.Keeps (Keeping s₀ T) (writeFront env w' lines m_dwMaximumSpaceNeeded m_stubFile) :=
    hframe.bind (fun _ => id) fun _ => hframe.bind (fun _ => id) fun _ => hframe.WriteLanguageL env w'
  have htables : Run.Keeps (Keeping s₀ T) (writeTables env w' lines) :=
    hframe.bind (hframe.each fun pNode => hframe.writePkgLine env w' pNode) fun _ =>
      hframe.bind (hframe.each fun d => hframe.writeDepend env w' d) fun _ => hframe.each fun c => hframe.emit _
  have hstrings := hframe.bind (hframe.bind hfront fun _ => htables) fun _ => hframe.WriteStringsL env w' lines
  refine Run.Leaves.bind ⟨hstrings s h, fun a s' hok hfull => hcodes hfull a s' hok⟩ ?_
  intro _ s hs hturns
  apply Run.Leaves.bind (Q := fun _ _ => True)
  · split
    · exact .pure hs trivial
    · next hfull =>
      refine Run.Leaves.each (fun f s hs hfree => writeCode_kept env target hs hfree) hs ((hturns hfull).imp ?_)
      intro f hf s hpackable bytes hbytes
      obtain ⟨node, hnode, hcode⟩ := List.mem_filterMap.mp hf
      exact (hknown node hnode f (Option.filter_eq_some_iff.mp hcode).1).elim (hpackable bytes hbytes) id
  · intro _ s hs _
    exact ⟨hs, fun _ _ _ => trivial⟩

theorem GenerateSISFile_leaves {pszTargetFile : WString} (h : Kept s₀ (· = sisFile env pszTargetFile) s)
    (hcareful : Careful env s₀ w pszTargetFile m_stubFile s) :
    Kept s₀ (· = sisFile env pszTargetFile) (GenerateSISFile env w pszTargetFile m_stubFile s).2 := by
  have hemptied : Kept s₀ (· = sisFile env pszTargetFile) (emptied env pszTargetFile s) := h.set (.inr rfl) (some [])
  have hrun : Run.Leaves (Kept s₀ (· = sisFile env pszTargetFile)) (fun _ _ => True)
      (prepare env w m_stubFile >>= writePrepared env pszTargetFile m_stubFile) (emptied env pszTargetFile s) := by
    have hprepare := prepare_leaves env hemptied hcareful
    refine Run.Leaves.bind ⟨hprepare.state, fun prepared s' hok => And.intro (hprepare.result prepared s' hok)
      fun lines hlines hfull => hcareful.codes hfull prepared s' hok lines hlines⟩ ?_
    rintro prepared s hs ⟨hknown, hcodes⟩
    unfold writePrepared
    split
    · exact .stop hs _
    · next lines hlines => exact writeBlocks_leaves env hs hknown (hcodes lines hlines)
  exact hrun.state

theorem ParseSource_leaves (parse : (WString → Option Bytes) → Bytes → Option SISWriter) {sourceFile : WString}
    (h : Kept s₀ T s) (hsource : TextFree env s₀ T sourceFile s) :
    Kept s₀ T (ParseSource env parse sourceFile s).2 := by
  have hrun : Run.Leaves (Kept s₀ T) (fun _ _ => True) (ParseSource env parse sourceFile) s := by
    rw [ParseSource_eq]
    apply (sourceFileUsed_leaves env h hsource).bind
    intro used s hs hused
    apply (openSource_leaves env hs).bind
    rintro file s hs ⟨-, rfl⟩
    apply (Run.Leaves.read hs _).bind
    rintro bytes s hs ⟨-, rfl⟩
    apply (Run.Leaves.read hs _).bind
    rintro writer s hs ⟨-, rfl⟩
    apply Run.Leaves.bind (Q := fun _ _ => True)
    · split
      · next hconverted =>
        rw [if_pos hconverted] at hused
        exact setContents_leaves hs hused none
      · exact .pure hs trivial
    · intro _ s hs _
      exact .pure hs trivial
  exact hrun.state

/-- What the run leaves alone: it changes only its output file and files that were not there, and the PKG file and the
files that are named in it hold what they held. -/
structure KeepsInputs (env : Env) (parse : (WString → Option Bytes) → Bytes → Option SISWriter)
    (sourceFile targetFile : WString) (s s' : State) : Prop where
  changed : ∀ file, s'.disk file ≠ s.disk file → file = sisFile env targetFile ∨ s.disk file = none
  source : ∀ bytes, s.disk (sisFile env sourceFile) = some bytes → s'.disk (sisFile env sourceFile) = some bytes
  named : Run.After (ParseSource env parse sourceFile) (fun writer _ => ∀ w, writer = some w → ∀ node ∈ w.pkgLines,
    ∀ f, node.file? = some f → ∀ bytes, s.disk (sisFile env f.pszSource) = some bytes →
      s'.disk (sisFile env f.pszSource) = some bytes) s

/-- A file that may change while the PKG file is read: the output file, if that is another one. -/
def OutputBeside (env : Env) (sourceFile targetFile file : WString) : Prop :=
  file = sisFile env targetFile ∧ file ≠ sisFile env sourceFile

/-- While the PKG file is read only a free name is taken.  Where it describes a package, the output file is no input, and
the generator is careful. -/
structure CarefulRun (env : Env) (parse : (WString → Option Bytes) → Bytes → Option SISWriter)
    (sourceFile targetFile : WString) (stubFile : Bool) (s : State) : Prop where
  converted : TextFree env s (OutputBeside env sourceFile targetFile) sourceFile s
  source : Run.After (ParseSource env parse sourceFile) (fun writer _ => ∀ w, writer = some w →
    sisFile env sourceFile ≠ sisFile env targetFile) s
  named : Run.After (ParseSource env parse sourceFile) (fun writer _ => ∀ w, writer = some w → ∀ node ∈ w.pkgLines,
    ∀ f, node.file? = some f → (s.disk (sisFile env f.pszSource)).isSome →
      sisFile env f.pszSource ≠ sisFile env targetFile) s
  package : Run.After (ParseSource env parse sourceFile) (fun writer s' => ∀ w, writer = some w →
    Careful env s w targetFile stubFile s') s

theorem makesis_kept {parse : (WString → Option Bytes) → Bytes → Option SISWriter} {sourceFile targetFile : WString}
    {stubFile : Bool} (h : CarefulRun env parse sourceFile targetFile stubFile s) :
    Kept s (· = sisFile env targetFile) (makesis env parse sourceFile targetFile stubFile s).2 ∧
      ∀ bytes, s.disk (sisFile env sourceFile) = some bytes →
        (makesis env parse sourceFile targetFile stubFile s).2.disk (sisFile env sourceFile) = some bytes := by
  have hparse := ParseSource_leaves env parse (fun _ _ hfile _ => hfile) h.converted
  have hkept : Kept s (· = sisFile env targetFile) (ParseSource env parse sourceFile s).2 :=
    hparse.mono fun _ hfile => hfile.1
  have hsource : ∀ bytes, s.disk (sisFile env sourceFile) = some bytes →
      (ParseSource env parse sourceFile s).2.disk (sisFile env sourceFile) = some bytes :=
    fun bytes hbytes => hparse _ bytes hbytes fun hfile => hfile.2 rfl
  rw [makesis, Run.bind_apply]
  rcases hrun : ParseSource env parse sourceFile s with ⟨e | writer, s'⟩
  · rw [hrun] at hkept hsource
    exact ⟨hkept, hsource⟩
  · rw [hrun] at hkept hsource
    rcases writer with _ | w
    · exact ⟨hkept, hsource⟩
    · have hgenerated := GenerateSISFile_leaves env hkept (h.package _ s' hrun w rfl)
      exact ⟨hgenerated, fun bytes hbytes => hgenerated _ bytes hbytes (h.source _ s' hrun w rfl)⟩

end

/-! ### A package with its PKG file -/

/-- The file `a`, and the PKG file `P`, which only has a byte order mark. -/
def pkgState : State :=
  { sampleState with disk := Function.update sampleState.disk [80] (some [0xff, 0xfe, 0, 0]) }

theorem ParseSource_sample (w : SISWriter) :
    ParseSource (sampleEnv .little) (fun _ _ => some w) [80] pkgState = (.ok (some w), pkgState) := rfl

theorem carefulRun_sample :
    CarefulRun (sampleEnv .little) (fun _ _ => some samplePackage) [80] [83] false pkgState where
  converted := by
    intro bytes hbytes hmark
    obtain rfl : _ = bytes := Option.some.inj hbytes
    rcases hmark with hmark | ⟨hmark, -⟩
    all_goals exact absurd hmark (by decide)
  source := fun _ _ _ _ _ => by decide
  named := by
    intro writer s' hok w hw node hnode f hf _
    rw [ParseSource_sample] at hok
    obtain rfl : samplePackage = w := Option.some.inj ((Except.ok.inj (congrArg Prod.fst hok)).trans hw)
    rw [samplePackage, List.mem_singleton] at hnode
    subst hnode
    rw [← Option.some.inj hf]
    decide
  package := by
    intro writer s' hok w hw
    rw [ParseSource_sample] at hok
    obtain rfl : samplePackage = w := Option.some.inj ((Except.ok.inj (congrArg Prod.fst hok)).trans hw)
    obtain rfl : pkgState = s' := congrArg Prod.snd hok
    refine ⟨fun _ => trivial, fun _ => ?_, fun _ => ?_⟩
    · intro w' s' hok
      have hprepared : (do
          let w ← convertTexts (sampleEnv .little) samplePackage false
          let _ ← EstimateInstallationSizeL (sampleEnv .little) w
          pure w) (emptied (sampleEnv .little) [83] pkgState) =
            (.ok samplePackage, emptied (sampleEnv .little) [83] pkgState) := rfl
      rw [hprepared] at hok
      obtain rfl : samplePackage = w' := Except.ok.inj (congrArg Prod.fst hok)
      obtain rfl : _ = s' := congrArg Prod.snd hok
      refine ⟨fun _ _ j _ hused _ => ?_, fun _ _ _ => trivial⟩
      -- The first name is not in use.
      rcases j with _ | j
      · exact .inl rfl
      · exact absurd (hused 0 (Nat.succ_pos j)) (by decide)
    · intro prepared s' hok lines _ _ s'' _
      obtain rfl : _ = prepared := Except.ok.inj (congrArg Prod.fst hok)
      refine ⟨fun bytes _ hnamed => ?_, fun _ _ _ => trivial⟩
      obtain ⟨node, hnode, f, hf, hname⟩ := hnamed
      rw [samplePackage, List.mem_singleton] at hnode
      subst hnode
      rw [← Option.some.inj hf] at hname
      exact absurd hname (by decide)

end GnuPoc.Crtsis
