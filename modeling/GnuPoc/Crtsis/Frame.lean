import GnuPoc.Crtsis.Files

/-!
# GnuPoc.Crtsis.Frame — what the preparation of the files leaves alone

A relation between states that allows for memory and for changes of the disk holds over the conversion of the text files
and over the compression; the estimate of the size only takes memory.
-/

namespace GnuPoc.Crtsis

open GnuPoc.Lib

/-- A relation that holds where memory is taken. -/
structure MemoryFrame (R : State → State → Prop) : Prop where
  refl : ∀ s, R s s
  trans : ∀ a b c, R a b → R b c → R a c
  allocate : ∀ s, R s { s with allocated := s.allocated + 1 }

/-- A relation that also holds where a file is written or deleted. -/
structure DiskFrame (R : State → State → Prop) : Prop extends MemoryFrame R where
  set : ∀ s file bytes, R s { s with disk := Function.update s.disk file bytes }

namespace MemoryFrame

variable {R : State → State → Prop} {α β : Type}

theorem pure (h : MemoryFrame R) (a : α) : Run.Keeps R (pure a : Gen α) := Run.Keeps.pure h.refl a

theorem stop (h : MemoryFrame R) (e : Stop) : Run.Keeps R (Run.stop e : Gen α) := Run.Keeps.stop h.refl e

theorem read (h : MemoryFrame R) (f : State → α) : Run.Keeps R (Run.read f : Gen α) := Run.Keeps.read h.refl f

theorem bind (h : MemoryFrame R) {m : Gen α} {f : α → Gen β} (hm : Run.Keeps R m) (hf : ∀ a, Run.Keeps R (f a)) :
    Run.Keeps R (m >>= f) := Run.Keeps.bind h.trans hm hf

variable (h : MemoryFrame R) (env : Env)
include h

theorem uninitialised (n : ℕ) : Run.Keeps R (uninitialised env n) := fun s => h.allocate s

theorem openSource (name : WString) : Run.Keeps R (openSource env name) := by
  apply h.bind (h.read _)
  intro file
  rcases file with _ | file
  · exact h.stop _
  · exact h.pure _

theorem FileIsUnicode (fileName : WString) : Run.Keeps R (FileIsUnicode env fileName) := by
  apply h.bind (h.openSource env _)
  intro file
  apply h.bind (h.read _)
  intro bytes
  apply Run.Keeps.ite
  · exact fun _ => h.pure _
  · intro _
    apply Run.Keeps.ite
    · exact fun _ => h.pure _
    · exact fun _ => h.pure _

theorem CalculateInstallSizeOfFileL (node : PkgLineNode) :
    Run.Keeps R (CalculateInstallSizeOfFileL env node) := by
  unfold Crtsis.CalculateInstallSizeOfFileL
  split
  · exact h.pure _
  · split
    · exact h.pure _
    · exact h.pure _
    · exact h.pure _
    · exact h.bind (h.openSource env _) fun _ => h.bind (h.read _) fun _ => h.bind (h.uninitialised env _) fun _ => h.pure _
    · exact h.pure _

mutual

theorem branchSize : ∀ (fuel : ℕ) (needsOfBlock : UInt32) (nodes : List PkgLineNode),
    Run.Keeps R (branchSize env fuel needsOfBlock nodes)
  | 0, _, _ => by
    unfold Crtsis.branchSize
    exact h.stop _
  | fuel + 1, _, [] => by
    unfold Crtsis.branchSize
    exact h.stop _
  | fuel + 1, needsOfBlock, node :: nodes => by
    unfold Crtsis.branchSize
    split
    · exact h.pure _
    · exact h.pure _
    · exact h.pure _
    · exact h.bind (ifBlockSize fuel 0 nodes) fun rest => branchSize fuel _ rest.2
    · exact h.bind (h.CalculateInstallSizeOfFileL env _) fun _ => branchSize fuel _ nodes

theorem ifBlockSize : ∀ (fuel : ℕ) (spaceNeeded : UInt32) (nodes : List PkgLineNode),
    Run.Keeps R (ifBlockSize env fuel spaceNeeded nodes)
  | 0, _, _ => by
    unfold Crtsis.ifBlockSize
    exact h.stop _
  | fuel + 1, spaceNeeded, nodes => by
    unfold Crtsis.ifBlockSize
    apply h.bind (branchSize fuel 0 nodes)
    rintro ⟨needsOfBlock, nodes⟩
    dsimp only
    split
    · exact h.stop _
    · exact h.pure _
    · exact ifBlockSize fuel _ _

end

theorem estimateLoop : ∀ (fuel : ℕ) (size : UInt32) (nodes : List PkgLineNode),
    Run.Keeps R (estimateLoop env fuel size nodes)
  | _, _, [] => by
    unfold Crtsis.estimateLoop
    exact h.pure _
  | 0, _, _ :: _ => by
    unfold Crtsis.estimateLoop
    exact h.stop _
  | fuel + 1, size, node :: nodes => by
    unfold Crtsis.estimateLoop
    split
    · exact h.pure _
    · exact h.stop _
    · exact h.bind (h.ifBlockSize env _ 0 _) fun rest => estimateLoop _ _ rest.2
    · exact h.bind (h.CalculateInstallSizeOfFileL env _) fun _ => estimateLoop _ _ _

end MemoryFrame

namespace DiskFrame

variable {R : State → State → Prop} (h : DiskFrame R) (env : Env)
include h

theorem setContents (file : WString) (bytes : Option Bytes) : Run.Keeps R (setContents file bytes) :=
  fun s => h.set s file bytes

theorem createNew (name : WString) : Run.Keeps R (createNew env name) := h.bind (h.setContents _ _) fun _ => h.pure _

theorem findTemp (fileName : WString) : ∀ n i : ℕ, Run.Keeps R (findTemp env fileName n i)
  | 0, _ => h.pure _
  | n + 1, i => by
    apply h.bind (h.read _)
    intro file
    apply Run.Keeps.ite
    · exact fun _ => findTemp fileName n (i + 1)
    · exact fun _ => h.pure _

theorem TempFileName (fileName : WString) : Run.Keeps R (TempFileName env fileName) :=
  h.bind (h.findTemp env fileName _ _) fun _ => h.pure _

theorem ConvertFileToLittleEndianUnicode (fileName : WString) :
    Run.Keeps R (ConvertFileToLittleEndianUnicode env fileName) := by
  apply h.bind (h.openSource env _)
  intro file
  apply h.bind (h.read _)
  intro bytes
  apply h.bind (h.uninitialised env _)
  intro pBuf
  apply Run.Keeps.ite
  · exact fun _ => h.stop _
  · intro _
    apply h.bind (h.TempFileName env _)
    intro pszTempSource
    apply h.bind (h.createNew env _)
    intro temp
    exact h.bind (h.setContents _ _) fun _ => h.pure _

theorem ConvertFileToUnicode (fileName : WString) : Run.Keeps R (ConvertFileToUnicode env fileName) := by
  apply h.bind (h.openSource env _)
  intro file
  apply h.bind (h.read _)
  intro bytes
  apply h.bind (h.uninitialised env _)
  intro pNarrowBuf
  apply h.bind (h.TempFileName env _)
  intro pszTempSource
  apply h.bind (h.createNew env _)
  intro temp
  apply h.bind (h.uninitialised env _)
  intro pBufU
  split
  · exact h.bind (h.setContents _ _) fun _ => h.pure _
  · exact h.stop _
  · exact h.stop _

theorem checkTextFile (converted : Bool) (f : PkgLineFile) : Run.Keeps R (checkTextFile env converted f) := by
  apply h.bind (h.FileIsUnicode env _)
  rintro ⟨isUnicode, littleEndian⟩
  apply h.bind
  · apply Run.Keeps.ite
    · exact fun _ => h.bind (h.ConvertFileToUnicode env _) fun _ => h.pure _
    · intro _
      apply Run.Keeps.ite
      · exact fun _ => h.bind (h.ConvertFileToLittleEndianUnicode env _) fun _ => h.pure _
      · exact fun _ => h.pure _
  · rintro ⟨converted, f⟩
    exact h.bind (h.openSource env _) fun _ => h.bind (h.read _) fun _ => h.pure _

theorem CheckUnicodeTextFiles : ∀ (converted : Bool) (nodes : List PkgLineNode),
    Run.Keeps R (CheckUnicodeTextFiles env converted nodes)
  | _, [] => h.pure _
  | converted, node :: nodes => by
    unfold Crtsis.CheckUnicodeTextFiles
    split
    · exact h.bind (CheckUnicodeTextFiles converted nodes) fun _ => h.pure _
    · apply Run.Keeps.ite
      · intro _
        apply h.bind (h.checkTextFile env _ _)
        rintro ⟨converted, f⟩
        exact h.bind (CheckUnicodeTextFiles converted nodes) fun _ => h.pure _
      · exact fun _ => h.bind (CheckUnicodeTextFiles converted nodes) fun _ => h.pure _

theorem CompressFile (f : PkgLineFile) (name : WString) : Run.Keeps R (CompressFile env f name) := by
  apply h.bind (h.openSource env _)
  intro source
  apply h.bind (h.createNew env _)
  intro output
  apply h.bind (h.read _)
  intro bytes
  split
  · exact h.bind (h.setContents _ _) fun _ => h.pure _
  · exact h.bind (h.setContents _ _) fun _ => h.stop _

theorem CompressFiles (w : SISWriter) : ∀ nodes : List PkgLineNode, Run.Keeps R (CompressFiles env w nodes)
  | [] => h.pure _
  | node :: nodes => by
    unfold Crtsis.CompressFiles
    split
    · exact h.bind (CompressFiles w nodes) fun _ => h.pure _
    · apply h.bind
      · apply Run.Keeps.ite
        · exact fun _ => h.bind (h.TempFileName env _) fun _ => h.bind (h.CompressFile env _ _) fun _ => h.pure _
        · exact fun _ => h.pure _
      · exact fun _ => h.bind (CompressFiles w nodes) fun _ => h.pure _

theorem prepare (w : SISWriter) (m_stubFile : Bool) : Run.Keeps R (prepare env w m_stubFile) := by
  apply h.bind
  · apply Run.Keeps.ite
    · exact fun _ => h.bind (h.CheckUnicodeTextFiles env false _) fun _ => h.pure _
    · exact fun _ => h.pure _
  · intro w
    apply h.bind (h.estimateLoop env _ 0 _)
    intro size
    exact h.bind (h.CompressFiles env w _) fun _ => h.pure _

end DiskFrame

/-! ### The turn of a file -/

/-- What a file holds, where there is one. -/
def Holding (env : Env) (name : WString) (Q : Bytes → Prop) (s : State) : Prop :=
  ∀ bytes, s.disk (sisFile env name) = some bytes → Q bytes

section
variable (env : Env)

theorem openSource_some {name : WString} {s : State} {bytes : Bytes} (h : s.disk (sisFile env name) = some bytes) :
    openSource env name s = (.ok (sisFile env name), s) := by
  simp [openSource, openExisting, Run.bind_apply, h]

theorem openSource_none {name : WString} {s : State} (h : s.disk (sisFile env name) = none) :
    openSource env name s = (.error .ErrCannotOpenFile, s) := by
  simp [openSource, openExisting, Run.bind_apply, h]

theorem openSource_bind_congr {α : Type} {name : WString} {s : State} {f f' : WString → Gen α}
    (h : ∀ bytes, s.disk (sisFile env name) = some bytes → f (sisFile env name) s = f' (sisFile env name) s) :
    (openSource env name >>= f) s = (openSource env name >>= f') s := by
  rcases hfile : s.disk (sisFile env name) with _ | bytes
  · rw [Run.bind_error (openSource_none env hfile), Run.bind_error (openSource_none env hfile)]
  · rw [Run.bind_ok (openSource_some env hfile), Run.bind_ok (openSource_some env hfile), h bytes hfile]

theorem contents_apply (file : WString) (s : State) : contents file s = (.ok ((s.disk file).getD []), s) := rfl

/-- What holds of every text file when its turn comes. -/
def EachText (P : PkgLineFile → State → Prop) : Bool → List PkgLineNode → State → Prop
  | _, [], _ => True
  | converted, node :: nodes, s =>
    match node.file? with
    | none => EachText P converted nodes s
    | some f =>
      if f.type = .EInstFileTypeText then
        P f s ∧ Run.After (checkTextFile env converted f) (fun checked s' => EachText P checked.1 nodes s') s
      else EachText P converted nodes s

end

/-! ### What stays of a line -/

/-- Only the source and the sizes of a file are replaced. -/
structure SameFile (f f' : PkgLineFile) : Prop where
  type : f'.type = f.type
  options : f'.options = f.options
  pszDest : f'.pszDest = f.pszDest
  pszMimeType : f'.pszMimeType = f.pszMimeType

theorem SameFile.refl (f : PkgLineFile) : SameFile f f := ⟨rfl, rfl, rfl, rfl⟩

theorem SameFile.trans {f f' f'' : PkgLineFile} (h : SameFile f f') (h' : SameFile f' f'') : SameFile f f'' :=
  ⟨h'.type.trans h.type, h'.options.trans h.options, h'.pszDest.trans h.pszDest, h'.pszMimeType.trans h.pszMimeType⟩

/-- The same line with the same file. -/
inductive SameLine : PkgLineNode → PkgLineNode → Prop
  | same (node : PkgLineNode) : SameLine node node
  | file {f f' : PkgLineFile} (h : SameFile f f') : SameLine (.EInstPkgLineFile f) (.EInstPkgLineFile f')
  | languageFile {f f' : PkgLineFile} (h : SameFile f f') :
    SameLine (.EInstPkgLineLanguageFile f) (.EInstPkgLineLanguageFile f')

theorem SameLine.withFile {node : PkgLineNode} {f f' : PkgLineFile} (hfile : node.file? = some f) (h : SameFile f f') :
    SameLine node (node.withFile f') := by
  cases node with
  | EInstPkgLineFile g => exact .file (Option.some.inj hfile ▸ h)
  | EInstPkgLineLanguageFile g => exact .languageFile (Option.some.inj hfile ▸ h)
  | _ => simp [PkgLineNode.file?] at hfile

section
variable (env : Env)

theorem checkTextFile_same {converted : Bool} {f : PkgLineFile} {checked : Bool × PkgLineFile} {s s' : State}
    (h : checkTextFile env converted f s = (.ok checked, s')) : SameFile f checked.2 := by
  obtain ⟨⟨isUnicode, littleEndian⟩, _, _, h⟩ := Run.ok_of_bind h
  obtain ⟨⟨converted', f'⟩, _, hconvert, h⟩ := Run.ok_of_bind h
  obtain ⟨_, _, _, h⟩ := Run.ok_of_bind h
  obtain ⟨_, _, _, h⟩ := Run.ok_of_bind h
  have hsame : SameFile f f' := by
    split at hconvert
    · obtain ⟨_, _, _, hconvert⟩ := Run.ok_of_bind hconvert
      simp only [Run.pure_apply, Prod.mk.injEq, Except.ok.injEq] at hconvert
      exact hconvert.1.2 ▸ ⟨rfl, rfl, rfl, rfl⟩
    · split at hconvert
      · obtain ⟨_, _, _, hconvert⟩ := Run.ok_of_bind hconvert
        simp only [Run.pure_apply, Prod.mk.injEq, Except.ok.injEq] at hconvert
        exact hconvert.1.2 ▸ ⟨rfl, rfl, rfl, rfl⟩
      · simp only [Run.pure_apply, Prod.mk.injEq, Except.ok.injEq] at hconvert
        exact hconvert.1.2 ▸ SameFile.refl f
  simp only [Run.pure_apply, Prod.mk.injEq, Except.ok.injEq] at h
  rw [← h.1]
  split
  · exact hsame.trans ⟨rfl, rfl, rfl, rfl⟩
  · exact hsame

/-- The check changes nothing of a line but source and sizes. -/
theorem CheckUnicodeTextFiles_same {converted : Bool} {nodes nodes' : List PkgLineNode} {s s' : State}
    (h : CheckUnicodeTextFiles env converted nodes s = (.ok nodes', s')) : List.Forall₂ SameLine nodes nodes' := by
  induction nodes generalizing converted s s' nodes' with
  | nil =>
    simp only [CheckUnicodeTextFiles, Run.pure_apply, Prod.mk.injEq, Except.ok.injEq] at h
    exact h.1 ▸ .nil
  | cons node nodes ih =>
    have hcons : ∀ {converted : Bool} {node' : PkgLineNode} {s s' : State} {nodes' : List PkgLineNode},
        SameLine node node' → (do
          let nodes ← CheckUnicodeTextFiles env converted nodes
          pure (node' :: nodes)) s = (.ok nodes', s') → List.Forall₂ SameLine (node :: nodes) nodes' := by
      intro converted node' s s' nodes' hnode h
      obtain ⟨rest, _, hrest, h⟩ := Run.ok_of_bind h
      simp only [Run.pure_apply, Prod.mk.injEq, Except.ok.injEq] at h
      exact h.1 ▸ .cons hnode (ih hrest)
    unfold CheckUnicodeTextFiles at h
    rcases hfile : node.file? with _ | f
    · rw [hfile] at h
      exact hcons (.same node) h
    · rw [hfile] at h
      by_cases htext : f.type = .EInstFileTypeText
      · simp only [htext, if_true] at h
        obtain ⟨⟨converted', f'⟩, _, hchecked, h⟩ := Run.ok_of_bind h
        exact hcons (.withFile hfile (checkTextFile_same env hchecked)) h
      · simp only [htext, if_false] at h
        exact hcons (.same node) h

theorem sameLines_refl : ∀ nodes : List PkgLineNode, List.Forall₂ SameLine nodes nodes
  | [] => .nil
  | node :: nodes => .cons (.same node) (sameLines_refl nodes)

/-- The text files as they are to be installed. -/
def convertTexts (w : SISWriter) (m_stubFile : Bool) : Gen SISWriter :=
  if w.sizeOfChar ≠ 1 ∧ ¬ m_stubFile then do
    let pkgLines ← CheckUnicodeTextFiles env false w.pkgLines
    pure { w with pkgLines := pkgLines }
  else pure w

theorem prepare_eq (w : SISWriter) (m_stubFile : Bool) : prepare env w m_stubFile = (do
    let w ← convertTexts env w m_stubFile
    let m_dwMaximumSpaceNeeded ← EstimateInstallationSizeL env w
    let pkgLines ← CompressFiles env w w.pkgLines
    pure ({ w with pkgLines := pkgLines }, m_dwMaximumSpaceNeeded)) := rfl

theorem convertTexts_same {w w' : SISWriter} {m_stubFile : Bool} {s s' : State}
    (h : convertTexts env w m_stubFile s = (.ok w', s')) :
    ∃ nodes, w' = { w with pkgLines := nodes } ∧ List.Forall₂ SameLine w.pkgLines nodes := by
  unfold convertTexts at h
  split at h
  · obtain ⟨nodes, _, hnodes, h⟩ := Run.ok_of_bind h
    simp only [Run.pure_apply, Prod.mk.injEq, Except.ok.injEq] at h
    exact ⟨nodes, h.1.symm, CheckUnicodeTextFiles_same env hnodes⟩
  · simp only [Run.pure_apply, Prod.mk.injEq, Except.ok.injEq] at h
    exact ⟨w.pkgLines, h.1.symm, sameLines_refl _⟩

end

end GnuPoc.Crtsis
