import GnuPoc.Crtsis.Frame
import GnuPoc.Crtsis.Write

/-!
# GnuPoc.Crtsis.Blocks — what holds over the writing of the blocks

Behind the header every record is appended to the file and taken into the checksum in one step, and two cursors run on.
A relation that allows for these steps holds over every block; the code block also deletes files.
-/

namespace GnuPoc.Crtsis

open GnuPoc.Lib

/-- A relation that holds where a record is written and where a cursor runs on. -/
structure RecordFrame (R : State → State → Prop) : Prop extends MemoryFrame R where
  string : ∀ s size, R s { s with m_dwCurrString := s.m_dwCurrString + size }
  code : ∀ s size, R s { s with m_dwCurrCode := s.m_dwCurrCode + size }
  record : ∀ s bytes, R s { s with out := s.out ++ bytes, m_wCheck := Crc s.m_wCheck bytes }

/-- The blocks between the header and the code. -/
def writeRecords (env : Env) (w : SISWriter) (lines : List Place) : Gen Unit := do
  WriteLanguageL env w
  WritePkgLinesL env w lines
  WriteDependL env w
  WriteCapabilitiesL env w
  WriteStringsL env w lines

/-- Everything between the header and the checksum. -/
def writeBody (env : Env) (w : SISWriter) (target : WString) (lines : List Place) (m_stubFile : Bool) : Gen Unit := do
  writeRecords env w lines
  if m_stubFile then pure () else WriteCodeL env w target

namespace RecordFrame

section
variable {R : State → State → Prop} {α β : Type}

theorem each (h : RecordFrame R) {f : β → Gen Unit} {bs : List β} (hf : ∀ b, Run.Keeps R (f b)) :
    Run.Keeps R (Run.each f bs) := Run.Keeps.each h.refl h.trans fun b _ => hf b

theorem addString (h : RecordFrame R) (size : UInt32) : Run.Keeps R (addString size) := fun s => h.string s size

theorem addCode (h : RecordFrame R) (size : UInt32) : Run.Keeps R (addCode size) := fun s => h.code s size

theorem emit (h : RecordFrame R) (bytes : Bytes) : Run.Keeps R (do WriteFile bytes; addCrc bytes) :=
  fun s => h.record s bytes

theorem emit_bind (h : RecordFrame R) {bytes : Bytes} {f : Unit → Gen β} (hf : Run.Keeps R (f ())) :
    Run.Keeps R (WriteFile bytes >>= fun _ => addCrc bytes >>= f) := by
  have hassoc : (WriteFile bytes >>= fun _ => addCrc bytes >>= f) = ((do WriteFile bytes; addCrc bytes) >>= f) := rfl
  rw [hassoc]
  exact h.bind (h.emit bytes) fun _ => hf

end

section
variable {R : State → State → Prop} (h : RecordFrame R) (env : Env) (w : SISWriter)
include h

theorem writeFlipped (v : UInt32) : Run.Keeps R (writeFlipped env v) := h.emit _

theorem WriteLanguageL : Run.Keeps R (WriteLanguageL env w) := by
  apply h.bind (h.uninitialised env _)
  intro pLang
  split
  · exact h.stop _
  · exact h.emit _

theorem WriteFileNodeL (pNode : Place) (f : PkgLineFile) : Run.Keeps R (WriteFileNodeL env w pNode f) := by
  apply h.bind
  · exact h.bind (h.read _) fun _ => h.bind (h.addString _) fun _ =>
      h.bind (h.read _) fun _ => h.bind (h.addString _) fun _ => h.pure _
  · intro ifFile
    apply h.emit_bind
    apply h.bind (h.each fun f => h.writeFlipped env _)
    intro _
    apply h.bind
    · exact h.each fun f => h.bind (h.read _) fun _ =>
        h.bind (h.writeFlipped env _) fun _ => h.addCode _
    · intro _
      apply h.bind (h.each fun f => h.writeFlipped env _)
      intro _
      apply h.bind (h.read _)
      intro _
      apply h.bind (h.addString _)
      intro _
      exact h.emit _

theorem strings (strings : List WString) : Run.Keeps R (do
    Run.each (fun psz => Crtsis.writeFlipped env (w.stringSize psz)) strings
    Run.each (fun psz => do
      let mcs ← currString
      Crtsis.writeFlipped env mcs
      Crtsis.addString (w.stringSize psz)) strings) :=
  h.bind (h.each fun _ => h.writeFlipped env _) fun _ =>
    h.each fun _ => h.bind (h.read _) fun _ =>
      h.bind (h.writeFlipped env _) fun _ => h.addString _

theorem writeOptionsLoop : ∀ (i : ℕ) (strings : List WString), Run.Keeps R (writeOptionsLoop env w i strings)
  | 0, _ => h.pure ()
  | i + 1, strings => by
    unfold Crtsis.writeOptionsLoop
    apply Run.Keeps.ite
    · exact fun _ => h.stop _
    · intro _
      exact h.bind (h.strings env w _) fun _ => writeOptionsLoop i _

theorem WriteOptionsNodeL (option : PkgLineOptions) : Run.Keeps R (WriteOptionsNodeL env w option) := by
  apply h.bind (h.writeFlipped env _)
  intro _
  apply h.bind (h.writeOptionsLoop env w _ _)
  intro _
  exact h.each fun _ => h.writeFlipped env _

theorem writeExprType (expr : PkgLineCondition) : Run.Keeps R (writeExprType env expr) := h.emit _

theorem writePrimNumber (dwNumber : UInt32) : Run.Keeps R (writePrimNumber env dwNumber) :=
  h.bind (h.uninitialised env _) fun _ => h.emit _

theorem writePrimString (pszString : WString) : Run.Keeps R (writePrimString env w pszString) :=
  h.bind (h.read _) fun _ => h.bind (h.addString _) fun _ => h.emit _

theorem WriteCondExprL (expr : PkgLineCondition) : Run.Keeps R (WriteCondExprL env w expr) := by
  induction expr with
  | binary op pLhs pRhs ihLhs ihRhs =>
    exact h.bind (h.writeExprType env _) fun _ => h.bind ihLhs fun _ => ihRhs
  | EInstCondFuncExists arg ih => exact h.bind (h.writeExprType env _) fun _ => ih
  | EInstCondFuncDevCap arg ih => exact h.bind (h.writeExprType env _) fun _ => ih
  | EInstCondFuncAppCap arg₀ arg₁ ih₀ ih₁ =>
    exact h.bind (h.writeExprType env _) fun _ => h.bind ih₀ fun _ => ih₁
  | EInstCondUnaryOpNot pExpr ih => exact h.bind (h.writeExprType env _) fun _ => ih
  | EInstCondPrimTypeString psz =>
    exact h.bind (h.writeExprType env _) fun _ => h.writePrimString env w psz
  | EInstCondPrimTypeVariable n =>
    exact h.bind (h.writeExprType env _) fun _ => h.writePrimNumber env n
  | EInstCondPrimTypeNumber n =>
    exact h.bind (h.writeExprType env _) fun _ => h.writePrimNumber env n

theorem writeCondition (cond : PkgLineCondition) : Run.Keeps R (writeCondition env w cond) :=
  h.bind (h.writeFlipped env _) fun _ => h.WriteCondExprL env w cond

theorem writePkgLine (pNode : Place) : Run.Keeps R (writePkgLine env w pNode) := by
  apply h.bind (h.writeFlipped env _)
  intro _
  rcases pNode with ⟨node, next⟩
  cases node with
  | EInstPkgLineFile f => exact h.WriteFileNodeL env w _ f
  | EInstPkgLineLanguageFile f => exact h.WriteFileNodeL env w _ f
  | EInstPkgLineOption option => exact h.WriteOptionsNodeL env w option
  | EInstPkgLineCondIf cond => exact h.writeCondition env w cond
  | EInstPkgLineCondElseIf cond => exact h.writeCondition env w cond
  | EInstPkgLineCondElse => exact h.pure ()
  | EInstPkgLineCondEndIf => exact h.pure ()

theorem writeDepend (d : DependNode) : Run.Keeps R (writeDepend env w d) := by
  apply h.emit_bind
  exact h.strings env w _

theorem WriteString (psz : WString) : Run.Keeps R (WriteString env w psz) := h.emit _

theorem WriteString8 (psz : WString) : Run.Keeps R (WriteString8 psz) := h.emit _

theorem WriteCondExprStrL (expr : PkgLineCondition) : Run.Keeps R (WriteCondExprStrL env w expr) := by
  induction expr with
  | binary op pLhs pRhs ihLhs ihRhs => exact h.bind ihLhs fun _ => ihRhs
  | EInstCondFuncExists arg ih => exact ih
  | EInstCondFuncDevCap arg ih => exact ih
  | EInstCondFuncAppCap arg₀ arg₁ ih₀ ih₁ => exact h.bind ih₀ fun _ => ih₁
  | EInstCondUnaryOpNot pExpr ih => exact ih
  | EInstCondPrimTypeString psz => exact h.WriteString env w psz
  | EInstCondPrimTypeVariable n => exact h.pure ()
  | EInstCondPrimTypeNumber n => exact h.pure ()

theorem writeLineStrings (pNode : Place) : Run.Keeps R (writeLineStrings env w pNode) := by
  rcases pNode with ⟨node, next⟩
  cases node with
  | EInstPkgLineFile f =>
    exact h.bind (h.WriteString env w _) fun _ => h.bind (h.WriteString env w _) fun _ =>
      h.WriteString8 _
  | EInstPkgLineLanguageFile f =>
    exact h.bind (h.WriteString env w _) fun _ => h.bind (h.WriteString env w _) fun _ =>
      h.WriteString8 _
  | EInstPkgLineOption option => exact h.each fun psz => h.WriteString env w psz
  | EInstPkgLineCondIf cond => exact h.WriteCondExprStrL env w cond
  | EInstPkgLineCondElseIf cond => exact h.WriteCondExprStrL env w cond
  | EInstPkgLineCondElse => exact h.pure ()
  | EInstPkgLineCondEndIf => exact h.pure ()

theorem namePositions (strings : List WString) : Run.Keeps R (namePositions w strings) := by
  induction strings with
  | nil => exact h.pure _
  | cons psz rest ih =>
    exact h.bind (h.read _) fun _ => h.bind (h.addString _) fun _ =>
      h.bind ih fun _ => h.pure _

theorem WriteStringsL (lines : List Place) : Run.Keeps R (WriteStringsL env w lines) := by
  apply h.bind (h.uninitialised env _)
  intro pdwLength
  apply h.bind (h.uninitialised env _)
  intro pdwPos
  split
  · exact h.stop _
  · apply h.bind (h.namePositions w _)
    intro entries
    apply h.emit_bind
    apply h.emit_bind
    apply h.bind (h.each fun pNode => h.writeLineStrings env w pNode)
    intro _
    apply h.bind (h.each fun d => h.each fun psz => h.WriteString env w psz)
    intro _
    exact h.each fun psz => h.WriteString env w psz

theorem writeRecords (lines : List Place) : Run.Keeps R (writeRecords env w lines) := by
  apply h.bind (h.WriteLanguageL env w)
  intro _
  apply h.bind (h.each fun pNode => h.writePkgLine env w pNode)
  intro _
  apply h.bind (h.each fun d => h.writeDepend env w d)
  intro _
  apply h.bind (h.each fun c => h.emit _)
  intro _
  exact h.WriteStringsL env w lines

theorem writeCode (target : WString) {f : PkgLineFile}
    (hdelete : ∀ s, R s { s with disk := Function.update s.disk (env.fileOf f.pszSource) none }) :
    Run.Keeps R (writeCode env target f) := by
  apply h.bind (h.openSource env _)
  intro file
  apply h.bind (h.uninitialised env _)
  intro pBuf
  apply h.bind (h.read _)
  intro bytes
  apply h.emit_bind
  exact fun s => hdelete s

theorem WriteCodeL (target : WString)
    (hdelete : ∀ f ∈ w.pkgLines.filterMap PkgLineNode.code?, ∀ s,
      R s { s with disk := Function.update s.disk (env.fileOf f.pszSource) none }) :
    Run.Keeps R (WriteCodeL env w target) :=
  Run.Keeps.each h.refl h.trans fun f hf => h.writeCode env target (hdelete f hf)

end

end RecordFrame

end GnuPoc.Crtsis
