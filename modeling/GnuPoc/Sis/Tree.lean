import GnuPoc.Sis.Makesis

/-!
# GnuPoc.Sis.Tree — the loop of `GenerateSISFile` builds the tree the package file spells

`Block.build` is the meaning of a package body: a block becomes a `SISInstallBlock` of its own files,
its own embedded packages and its own `IF`s, by recursion on the nesting.  The loop works on the flat
list of nodes with open arrays and stacks; `genLoop_nodes` says that it computes the same fields.
-/

namespace GnuPoc.Sis

open GnuPoc.Lib GnuPoc.Pkg

/-! ### The tree of a package body -/

/-- The elements of the three arrays of a block. -/
structure Contents where
  files : List SISField
  embedded : List SISField
  ifs : List SISField

namespace Contents

def empty : Contents := ⟨[], [], []⟩

def append (c d : Contents) : Contents :=
  ⟨c.files ++ d.files, c.embedded ++ d.embedded, c.ifs ++ d.ifs⟩

/-- One controller or one description. -/
def single : SISField ⊕ SISField → Contents
  | .inl controller => ⟨[], [controller], []⟩
  | .inr fileDesc => ⟨[fileDesc], [], []⟩

def ofIf (f : SISField) : Contents := ⟨[], [], [f]⟩

/-- The `SISInstallBlock`. -/
def field (c : Contents) : SISField := installBlockField c.files c.embedded c.ifs

@[simp] theorem empty_append (c : Contents) : empty.append c = c := by simp [empty, append]

@[simp] theorem append_empty (c : Contents) : c.append empty = c := by simp [empty, append]

end Contents

/-- The branches for the languages: each file in a block of its own. -/
def languageBlocks (ctx : GenContext) : List UInt32 → List PKGLINEFILE → Supplies →
    Res (List (SISField × SISField) × Supplies)
  | [], _, t => .ok ([], t)
  | _ :: _, [], _ => .error .outOfBounds
  | langCode :: langCodes, file :: files, t => do
    let (field, t) ← addFile ctx file true t
    let (blocks, t) ← languageBlocks ctx langCodes files t
    .ok ((languageExpression langCode, (Contents.single field).field) :: blocks, t)

/-- `IF` for the first language, `ELSEIF` for the others. -/
def languageIf : List (SISField × SISField) → Res Contents
  | [] => .error .nullField
  | (exp, block) :: blocks =>
    .ok (.ofIf (ifField exp block (blocks.map fun b => elseIfField b.1 b.2)))

def lineBuild (ctx : GenContext) : Line → Supplies → Res (Contents × Supplies)
  | .file file, t => do
    let (field, t) ← addFile ctx file false t
    .ok (.single field, t)
  | .languageFiles files, t => do
    let (blocks, t) ← languageBlocks ctx ctx.langCodes files t
    let c ← languageIf blocks
    .ok (c, t)
  | .option option, t => do
    let options ← optionFields ctx.langCodes.length option.dwNumOptions option.pLangStringBase
    .ok (.empty, { t with optionsArray := t.optionsArray ++ options })

mutual
/-- The contents of the block a package body spells. -/
def blockBuild (ctx : GenContext) : Block Line PKGLINECONDITION → Supplies → Res (Contents × Supplies)
  | .nil, t => .ok (.empty, t)
  | .cons item rest, t => do
    let (c, t) ← itemBuild ctx item t
    let (d, t) ← blockBuild ctx rest t
    .ok (c.append d, t)
def itemBuild (ctx : GenContext) : Item Line PKGLINECONDITION → Supplies → Res (Contents × Supplies)
  | .line l, t => lineBuild ctx l t
  | .ifBlock cond body tail, t => do
    let (c, t) ← blockBuild ctx body t
    let (elseIfs, t) ← tailBuild ctx tail t
    .ok (.ofIf (ifField (GetExpression cond) c.field elseIfs), t)
/-- The `SISElseIf`s of an `IF`. -/
def tailBuild (ctx : GenContext) : Tail Line PKGLINECONDITION → Supplies →
    Res (List SISField × Supplies)
  | .endIf, t => .ok ([], t)
  | .elseIf cond body tail, t => do
    let (c, t) ← blockBuild ctx body t
    let (elseIfs, t) ← tailBuild ctx tail t
    .ok (elseIfField (GetExpression cond) c.field :: elseIfs, t)
  | .els body, t => do
    let (c, t) ← blockBuild ctx body t
    .ok ([elseIfField elseExpression c.field], t)
end

/-! ### Fields held by the arrays -/

/-- The lengths of the four arenas at some moment. -/
structure Marks where
  fileDescs : ℕ
  embedded : ℕ
  ifs : ℕ
  elseIfs : ℕ

def Arrays.marks (A : Arrays) : Marks :=
  ⟨A.fileDescs.length, A.embedded.length, A.ifs.length, A.elseIfs.length⟩

/-- The marks behind a block. -/
def Marks.behind (lo : Marks) (b : BlockRef) : Marks :=
  ⟨b.fileDescArray + 1, b.embeddedArray + 1, b.ifArray + 1, lo.elseIfs⟩

/-- The block was allocated after the marks. -/
structure Marks.Before (lo : Marks) (b : BlockRef) : Prop where
  fileDescs : lo.fileDescs ≤ b.fileDescArray
  embedded : lo.embedded ≤ b.embeddedArray
  ifs : lo.ifs ≤ b.ifArray

/-- The block's arrays exist. -/
structure BlockRef.In (b : BlockRef) (A : Arrays) : Prop where
  fileDescs : b.fileDescArray < A.fileDescs.length
  embedded : b.embeddedArray < A.embedded.length
  ifs : b.ifArray < A.ifs.length

/-- Only arrays allocated before the marks changed. -/
structure Arrays.Extends (lo : Marks) (A A' : Arrays) : Prop where
  fileDescs : Arena.Changes (· < lo.fileDescs) A.fileDescs A'.fileDescs
  embedded : Arena.Changes (· < lo.embedded) A.embedded A'.embedded
  ifs : Arena.Changes (· < lo.ifs) A.ifs A'.ifs
  elseIfs : Arena.Changes (· < lo.elseIfs) A.elseIfs A'.elseIfs

mutual
/-- A block whose arrays hold these contents, all of them allocated after the marks. -/
inductive HoldsBlock (A : Arrays) : Marks → BlockRef → Contents → Prop
  | mk {lo : Marks} {b : BlockRef} {c : Contents} : lo.Before b → b.In A →
    A.fileDescs.get b.fileDescArray = c.files → A.embedded.get b.embeddedArray = c.embedded →
    HoldsIfs A (lo.behind b) (A.ifs.get b.ifArray) c.ifs → HoldsBlock A lo b c
inductive HoldsIfs (A : Arrays) : Marks → List IfNode → List SISField → Prop
  | nil {lo : Marks} : HoldsIfs A lo [] []
  | cons {lo : Marks} {node : IfNode} {c : Contents} {elseIfs : List SISField} {nodes : List IfNode}
      {fields : List SISField} : HoldsBlock A lo node.installBlock c →
    lo.elseIfs ≤ node.elseIfArray → node.elseIfArray < A.elseIfs.length →
    HoldsElseIfs A lo (A.elseIfs.get node.elseIfArray) elseIfs → HoldsIfs A lo nodes fields →
    HoldsIfs A lo (node :: nodes) (ifField node.exp c.field elseIfs :: fields)
inductive HoldsElseIfs (A : Arrays) : Marks → List ElseIfNode → List SISField → Prop
  | nil {lo : Marks} : HoldsElseIfs A lo [] []
  | cons {lo : Marks} {node : ElseIfNode} {c : Contents} {nodes : List ElseIfNode}
      {fields : List SISField} : HoldsBlock A lo node.installBlock c →
    HoldsElseIfs A lo nodes fields →
    HoldsElseIfs A lo (node :: nodes) (elseIfField node.exp c.field :: fields)
end

section
variable {A A' : Arrays}

theorem Arrays.Extends.behind {lo : Marks} {b : BlockRef} (h : Arrays.Extends lo A A')
    (hb : lo.Before b) : Arrays.Extends (lo.behind b) A A' := by
  obtain ⟨hf, he, hi⟩ := hb
  refine ⟨h.fileDescs.mono fun i _ hlt => ?_, h.embedded.mono fun i _ hlt => ?_,
    h.ifs.mono fun i _ hlt => ?_, h.elseIfs⟩
  all_goals
    simp only [Marks.behind] at hlt ⊢
    omega

theorem BlockRef.In.extend {lo : Marks} {b : BlockRef} (h : b.In A) (hA : Arrays.Extends lo A A') :
    b.In A' :=
  ⟨lt_of_lt_of_le h.fileDescs hA.fileDescs.length_le, lt_of_lt_of_le h.embedded hA.embedded.length_le,
    lt_of_lt_of_le h.ifs hA.ifs.length_le⟩

mutual
theorem HoldsBlock.extend : ∀ {lo : Marks} {b : BlockRef} {c : Contents}, HoldsBlock A lo b c →
    Arrays.Extends lo A A' → HoldsBlock A' lo b c
  | lo, b, c, .mk hlo hin hf he hifs, hA => by
    refine .mk hlo (hin.extend hA) ?_ ?_ ?_
    · rw [hA.fileDescs.get_eq _ hin.fileDescs (Nat.not_lt.mpr hlo.fileDescs), hf]
    · rw [hA.embedded.get_eq _ hin.embedded (Nat.not_lt.mpr hlo.embedded), he]
    · rw [hA.ifs.get_eq _ hin.ifs (Nat.not_lt.mpr hlo.ifs)]
      exact hifs.extend (hA.behind hlo)
theorem HoldsIfs.extend : ∀ {lo : Marks} {nodes : List IfNode} {fields : List SISField},
    HoldsIfs A lo nodes fields → Arrays.Extends lo A A' → HoldsIfs A' lo nodes fields
  | _, _, _, .nil, _ => .nil
  | lo, _, _, .cons hblock hlo hlt helse hrest, hA => by
    refine .cons (hblock.extend hA) hlo (lt_of_lt_of_le hlt hA.elseIfs.length_le) ?_ (hrest.extend hA)
    rw [hA.elseIfs.get_eq _ hlt (Nat.not_lt.mpr hlo)]
    exact helse.extend hA
theorem HoldsElseIfs.extend : ∀ {lo : Marks} {nodes : List ElseIfNode} {fields : List SISField},
    HoldsElseIfs A lo nodes fields → Arrays.Extends lo A A' → HoldsElseIfs A' lo nodes fields
  | _, _, _, .nil, _ => .nil
  | _, _, _, .cons hblock hrest, hA => .cons (hblock.extend hA) (hrest.extend hA)
end

/-- Earlier marks. -/
structure Marks.Le (lo lo' : Marks) : Prop where
  fileDescs : lo.fileDescs ≤ lo'.fileDescs
  embedded : lo.embedded ≤ lo'.embedded
  ifs : lo.ifs ≤ lo'.ifs
  elseIfs : lo.elseIfs ≤ lo'.elseIfs

theorem Marks.Before.mono {lo lo' : Marks} {b : BlockRef} (h : lo'.Before b) (hle : lo.Le lo') :
    lo.Before b :=
  ⟨hle.fileDescs.trans h.fileDescs, hle.embedded.trans h.embedded, hle.ifs.trans h.ifs⟩

mutual
theorem HoldsBlock.mono : ∀ {lo lo' : Marks} {b : BlockRef} {c : Contents}, HoldsBlock A lo' b c →
    lo.Le lo' → HoldsBlock A lo b c
  | _, _, _, _, .mk hlo hin hf he hifs, hle =>
    .mk (hlo.mono hle) hin hf he (hifs.mono ⟨le_rfl, le_rfl, le_rfl, hle.elseIfs⟩)
theorem HoldsIfs.mono : ∀ {lo lo' : Marks} {nodes : List IfNode} {fields : List SISField},
    HoldsIfs A lo' nodes fields → lo.Le lo' → HoldsIfs A lo nodes fields
  | _, _, _, _, .nil, _ => .nil
  | _, _, _, _, .cons hblock hlo hlt helse hrest, hle =>
    .cons (hblock.mono hle) (hle.elseIfs.trans hlo) hlt (helse.mono hle) (hrest.mono hle)
theorem HoldsElseIfs.mono : ∀ {lo lo' : Marks} {nodes : List ElseIfNode} {fields : List SISField},
    HoldsElseIfs A lo' nodes fields → lo.Le lo' → HoldsElseIfs A lo nodes fields
  | _, _, _, _, .nil, _ => .nil
  | _, _, _, _, .cons hblock hrest, hle => .cons (hblock.mono hle) (hrest.mono hle)
end

theorem HoldsIfs.append : ∀ {lo : Marks} {nodes nodes' : List IfNode} {fields fields' : List SISField},
    HoldsIfs A lo nodes fields → HoldsIfs A lo nodes' fields' →
    HoldsIfs A lo (nodes ++ nodes') (fields ++ fields')
  | _, _, _, _, _, .nil, h' => h'
  | _, _, _, _, _, .cons hblock hlo hlt helse hrest, h' => .cons hblock hlo hlt helse (hrest.append h')

theorem HoldsBlock.before {lo : Marks} {b : BlockRef} {c : Contents} (h : HoldsBlock A lo b c) :
    lo.Before b := by
  cases h
  assumption

/-! The fields that `installBlock` reads off are the ones held. -/

mutual
theorem HoldsBlock.installBlock : ∀ {lo : Marks} {b : BlockRef} {c : Contents}, HoldsBlock A lo b c →
    ∀ n, A.ifs.length ≤ n + b.ifArray → installBlock A n b = c.field
  | _, b, _, .mk _ hin _ _ _, 0, hn => by
    have := hin.ifs
    omega
  | lo, b, c, .mk hlo hin hf he hifs, n + 1, hn => by
    have h := hifs.installBlock n (by simp only [Marks.behind]; omega)
    rw [Sis.installBlock, hf, he, h, Contents.field]
theorem HoldsIfs.installBlock : ∀ {lo : Marks} {nodes : List IfNode} {fields : List SISField},
    HoldsIfs A lo nodes fields → ∀ n, A.ifs.length ≤ n + lo.ifs →
    (nodes.map fun node => ifField node.exp (installBlock A n node.installBlock)
      ((A.elseIfs.get node.elseIfArray).map fun e =>
        elseIfField e.exp (installBlock A n e.installBlock))) = fields
  | _, _, _, .nil, _, _ => rfl
  | lo, node :: _, _, .cons hblock _ _ helse hrest, n, hn => by
    have hb := hblock.before.ifs
    rw [List.map_cons, hblock.installBlock n (by omega), helse.installBlock n hn,
      hrest.installBlock n hn]
theorem HoldsElseIfs.installBlock : ∀ {lo : Marks} {nodes : List ElseIfNode} {fields : List SISField},
    HoldsElseIfs A lo nodes fields → ∀ n, A.ifs.length ≤ n + lo.ifs →
    (nodes.map fun e => elseIfField e.exp (installBlock A n e.installBlock)) = fields
  | _, _, _, .nil, _, _ => rfl
  | lo, node :: _, _, .cons hblock hrest, n, hn => by
    have hb := hblock.before.ifs
    rw [List.map_cons, hblock.installBlock n (by omega), hrest.installBlock n hn]
end

end

/-! ### What the walk over a block leaves -/

/-- The open arrays and the stacks. -/
def GenState.pointers (s : GenState) :
    BlockRef × Option ℕ × List ℕ × List ℕ × List ℕ × List (Option ℕ) :=
  (s.currentBlock, s.elseIfArray, s.fileDescArrays, s.embeddedArrays, s.ifArrays, s.elseIfArrays)

/-- The open arrays have grown by `c`; the other arrays, the open ones' names and the stacks are as
before. -/
structure Grows (s s' : GenState) (c : Contents) : Prop where
  pointers : s'.pointers = s.pointers
  files : s'.arrays.fileDescs.get s.fileDescArray = s.arrays.fileDescs.get s.fileDescArray ++ c.files
  embedded : s'.arrays.embedded.get s.embeddedArray =
    s.arrays.embedded.get s.embeddedArray ++ c.embedded
  ifs : ∃ nodes, s'.arrays.ifs.get s.ifArray = s.arrays.ifs.get s.ifArray ++ nodes ∧
    HoldsIfs s'.arrays s.arrays.marks nodes c.ifs
  fileDescsChange : Arena.Changes (· = s.fileDescArray) s.arrays.fileDescs s'.arrays.fileDescs
  embeddedChange : Arena.Changes (· = s.embeddedArray) s.arrays.embedded s'.arrays.embedded
  ifsChange : Arena.Changes (· = s.ifArray) s.arrays.ifs s'.arrays.ifs
  elseIfsChange : Arena.Changes (fun _ => False) s.arrays.elseIfs s'.arrays.elseIfs

section
variable {s s' s₁ s₂ : GenState} {c d : Contents}

theorem Grows.currentBlock (h : Grows s s' c) : s'.currentBlock = s.currentBlock :=
  congrArg Prod.fst h.pointers

theorem Grows.fileDescArray (h : Grows s s' c) : s'.fileDescArray = s.fileDescArray :=
  congrArg BlockRef.fileDescArray h.currentBlock

theorem Grows.embeddedArray (h : Grows s s' c) : s'.embeddedArray = s.embeddedArray :=
  congrArg BlockRef.embeddedArray h.currentBlock

theorem Grows.ifArray (h : Grows s s' c) : s'.ifArray = s.ifArray :=
  congrArg BlockRef.ifArray h.currentBlock

theorem Grows.ready (h : Grows s s' c) (hs : s.currentBlock.In s.arrays) :
    s'.currentBlock.In s'.arrays := by
  rw [h.currentBlock]
  exact ⟨lt_of_lt_of_le hs.fileDescs h.fileDescsChange.length_le,
    lt_of_lt_of_le hs.embedded h.embeddedChange.length_le,
    lt_of_lt_of_le hs.ifs h.ifsChange.length_le⟩

theorem Grows.marks_le (h : Grows s s' c) : s.arrays.marks.Le s'.arrays.marks :=
  ⟨h.fileDescsChange.length_le, h.embeddedChange.length_le, h.ifsChange.length_le,
    h.elseIfsChange.length_le⟩

theorem Grows.extends (h : Grows s s' c) {lo : Marks} (hf : s.fileDescArray < lo.fileDescs)
    (he : s.embeddedArray < lo.embedded) (hi : s.ifArray < lo.ifs) :
    Arrays.Extends lo s.arrays s'.arrays := by
  refine ⟨h.fileDescsChange.mono fun i _ hi => ?_, h.embeddedChange.mono fun i _ hi => ?_,
    h.ifsChange.mono fun i _ hi => ?_, h.elseIfsChange.mono fun i _ hi => hi.elim⟩
  all_goals
    rw [hi]
    assumption

theorem Grows.refl (s : GenState) : Grows s s .empty where
  pointers := rfl
  files := (List.append_nil _).symm
  embedded := (List.append_nil _).symm
  ifs := ⟨[], (List.append_nil _).symm, .nil⟩
  fileDescsChange := .refl _ _
  embeddedChange := .refl _ _
  ifsChange := .refl _ _
  elseIfsChange := .refl _ _

theorem Grows.trans (hs : s.currentBlock.In s.arrays) (h : Grows s s₁ c) (h' : Grows s₁ s₂ d) :
    Grows s s₂ (c.append d) := by
  obtain ⟨nodes, hn, hholds⟩ := h.ifs
  obtain ⟨nodes', hn', hholds'⟩ := h'.ifs
  have hf := h.fileDescArray
  have he := h.embeddedArray
  have hi := h.ifArray
  have hext : Arrays.Extends s.arrays.marks s₁.arrays s₂.arrays :=
    h'.extends (by rw [hf]; exact hs.fileDescs) (by rw [he]; exact hs.embedded)
      (by rw [hi]; exact hs.ifs)
  refine ⟨h'.pointers.trans h.pointers, ?_, ?_, ⟨nodes ++ nodes', ?_, ?_⟩, ?_, ?_, ?_, ?_⟩
  · rw [← hf, h'.files, hf, h.files, List.append_assoc]
    rfl
  · rw [← he, h'.embedded, he, h.embedded, List.append_assoc]
    rfl
  · rw [← hi, hn', hi, hn, List.append_assoc]
  · exact (hholds.extend hext).append (hholds'.mono h.marks_le)
  · exact h.fileDescsChange.trans (hf ▸ h'.fileDescsChange)
  · exact h.embeddedChange.trans (he ▸ h'.embeddedChange)
  · exact h.ifsChange.trans (hi ▸ h'.ifsChange)
  · exact h.elseIfsChange.trans h'.elseIfsChange

/-- `s₁` is `s` with a new, empty open block. -/
structure Opens (s s₁ : GenState) : Prop where
  currentBlock : s₁.currentBlock = s.newBlock.1
  fileDescs : s₁.arrays.fileDescs = s.arrays.fileDescs.alloc
  embedded : s₁.arrays.embedded = s.arrays.embedded.alloc
  length_ifs : s₁.arrays.ifs.length = s.arrays.ifs.length + 1
  ifs : s₁.arrays.ifs.get s₁.ifArray = []

theorem Opens.ready (h : Opens s s₁) : s₁.currentBlock.In s₁.arrays := by
  rw [h.currentBlock]
  refine ⟨?_, ?_, ?_⟩
  · rw [h.fileDescs, Arena.length_alloc]
    exact Nat.lt_succ_self _
  · rw [h.embedded, Arena.length_alloc]
    exact Nat.lt_succ_self _
  · rw [h.length_ifs]
    exact Nat.lt_succ_self _

theorem Opens.fileDescArray (h : Opens s s₁) : s₁.fileDescArray = s.arrays.fileDescs.length :=
  congrArg BlockRef.fileDescArray h.currentBlock

theorem Opens.embeddedArray (h : Opens s s₁) : s₁.embeddedArray = s.arrays.embedded.length :=
  congrArg BlockRef.embeddedArray h.currentBlock

theorem Opens.ifArray (h : Opens s s₁) : s₁.ifArray = s.arrays.ifs.length :=
  congrArg BlockRef.ifArray h.currentBlock

/-- The marks when `s₁` opens its block: the `SISElseIf` arrays of `s₁` are older than the block. -/
def openMarks (s s₁ : GenState) : Marks :=
  { s.arrays.marks with elseIfs := s₁.arrays.elseIfs.length }

theorem Opens.holds (h : Opens s s₁) (hg : Grows s₁ s₂ c) :
    HoldsBlock s₂.arrays (openMarks s s₁) s₁.currentBlock c := by
  have hready : s₁.currentBlock.In s₂.arrays := by
    rw [← hg.currentBlock]
    exact hg.ready h.ready
  have hf := h.fileDescArray
  have he := h.embeddedArray
  have hi := h.ifArray
  obtain ⟨nodes, hn, hholds⟩ := hg.ifs
  rw [h.ifs, List.nil_append] at hn
  refine .mk ⟨hf.ge, he.ge, hi.ge⟩ hready ?_ ?_ ?_
  · show s₂.arrays.fileDescs.get s₁.fileDescArray = c.files
    rw [hg.files, hf, h.fileDescs, Arena.get_alloc, Arena.get_of_le le_rfl, List.nil_append]
  · show s₂.arrays.embedded.get s₁.embeddedArray = c.embedded
    rw [hg.embedded, he, h.embedded, Arena.get_alloc, Arena.get_of_le le_rfl, List.nil_append]
  · show HoldsIfs s₂.arrays _ (s₂.arrays.ifs.get s₁.ifArray) c.ifs
    rw [hn]
    refine hholds.mono ⟨?_, ?_, ?_, le_rfl⟩
    · show s₁.fileDescArray + 1 ≤ s₁.arrays.fileDescs.length
      rw [hf, h.fileDescs, Arena.length_alloc]
    · show s₁.embeddedArray + 1 ≤ s₁.arrays.embedded.length
      rw [he, h.embedded, Arena.length_alloc]
    · show s₁.ifArray + 1 ≤ s₁.arrays.ifs.length
      rw [hi, h.length_ifs]

theorem Opens.fileDescs_unchanged (h : Opens s s₁) (hg : Grows s₁ s₂ c) :
    Arena.Changes (fun _ => False) s.arrays.fileDescs s₂.arrays.fileDescs := by
  have hnew := hg.fileDescsChange
  rw [h.fileDescArray, h.fileDescs] at hnew
  exact (Arena.changes_alloc _ _).trans_alloc hnew

theorem Opens.embedded_unchanged (h : Opens s s₁) (hg : Grows s₁ s₂ c) :
    Arena.Changes (fun _ => False) s.arrays.embedded s₂.arrays.embedded := by
  have hnew := hg.embeddedChange
  rw [h.embeddedArray, h.embedded] at hnew
  exact (Arena.changes_alloc _ _).trans_alloc hnew

end

/-! ### The chain of `SISElseIf`s -/

/-- The array `elseIfArray` has grown by `fields`; the other arrays are as before. -/
structure ElseIfsGrow (elseIfArray : ℕ) (A A' : Arrays) (fields : List SISField) : Prop where
  elseIfs : ∃ nodes, A'.elseIfs.get elseIfArray = A.elseIfs.get elseIfArray ++ nodes ∧
    HoldsElseIfs A' A.marks nodes fields
  fileDescsChange : Arena.Changes (fun _ => False) A.fileDescs A'.fileDescs
  embeddedChange : Arena.Changes (fun _ => False) A.embedded A'.embedded
  ifsChange : Arena.Changes (fun _ => False) A.ifs A'.ifs
  elseIfsChange : Arena.Changes (· = elseIfArray) A.elseIfs A'.elseIfs

section
variable {s s₁ s₂ : GenState} {A : Arrays} {c : Contents} {elseIfArray : ℕ} {exp : SISField}
  {fields : List SISField}

theorem ElseIfsGrow.refl (elseIfArray : ℕ) (A : Arrays) : ElseIfsGrow elseIfArray A A [] where
  elseIfs := ⟨[], (List.append_nil _).symm, .nil⟩
  fileDescsChange := .refl _ _
  embeddedChange := .refl _ _
  ifsChange := .refl _ _
  elseIfsChange := .refl _ _

theorem ElseIfsGrow.extends {A A' : Arrays} {lo : Marks} (h : ElseIfsGrow elseIfArray A A' fields)
    (he : elseIfArray < lo.elseIfs) : Arrays.Extends lo A A' := by
  refine ⟨h.fileDescsChange.mono fun i _ hi => hi.elim, h.embeddedChange.mono fun i _ hi => hi.elim,
    h.ifsChange.mono fun i _ hi => hi.elim, h.elseIfsChange.mono fun i _ hi => ?_⟩
  rw [hi]
  exact he

theorem ElseIfsGrow.cons (he : elseIfArray < s.arrays.elseIfs.length) (ho : Opens s s₁)
    (hifs : s₁.arrays.ifs = s.arrays.ifs.alloc)
    (hpush : s₁.arrays.elseIfs = s.arrays.elseIfs.push elseIfArray ⟨exp, s₁.currentBlock⟩)
    (hg : Grows s₁ s₂ c) (ht : ElseIfsGrow elseIfArray s₂.arrays A fields) :
    ElseIfsGrow elseIfArray s.arrays A (elseIfField exp c.field :: fields) := by
  obtain ⟨nodes, hn, hholds⟩ := ht.elseIfs
  have hlen : s₁.arrays.elseIfs.length = s.arrays.elseIfs.length := by
    rw [hpush, Arena.length_push]
  have hmarks : (openMarks s s₁) = s.arrays.marks := by
    rw [openMarks, hlen]
    rfl
  have hblock := ho.holds hg
  rw [hmarks] at hblock
  have hf := ho.fileDescs_unchanged hg
  have hemb := ho.embedded_unchanged hg
  have hi : Arena.Changes (fun _ => False) s.arrays.ifs s₂.arrays.ifs := by
    have hnew := hg.ifsChange
    rw [ho.ifArray, hifs] at hnew
    exact (Arena.changes_alloc _ _).trans_alloc hnew
  have hle : s.arrays.marks.Le s₂.arrays.marks :=
    ⟨hf.length_le, hemb.length_le, hi.length_le, hlen.ge.trans hg.elseIfsChange.length_le⟩
  refine ⟨⟨⟨exp, s₁.currentBlock⟩ :: nodes, ?_, ?_⟩, hf.trans ht.fileDescsChange,
    hemb.trans ht.embeddedChange, hi.trans ht.ifsChange, ?_⟩
  · rw [hn, hg.elseIfsChange.get_eq _ (hlen ▸ he) not_false, hpush, Arena.get_push_self he,
      List.append_assoc]
    rfl
  · exact .cons (hblock.extend (ht.extends he)) (hholds.mono hle)
  · refine Arena.Changes.trans ?_ ((hg.elseIfsChange.mono fun i _ hi => hi.elim).trans ht.elseIfsChange)
    rw [hpush]
    exact Arena.changes_push (p := (· = elseIfArray)) _ rfl _

/-- `s₁` opens the block of an `IF`, with a new array for its `SISElseIf`s. -/
structure OpensIf (s s₁ : GenState) : Prop extends Opens s s₁ where
  elseIfs : s₁.arrays.elseIfs = s.arrays.elseIfs.alloc

theorem OpensIf.length_elseIfs (ho : OpensIf s s₁) :
    s₁.arrays.elseIfs.length = s.arrays.elseIfs.length + 1 := by
  rw [ho.elseIfs, Arena.length_alloc]

theorem OpensIf.elseIfs_unchanged (ho : OpensIf s s₁) (hg : Grows s₁ s₂ c)
    (ht : ElseIfsGrow s.arrays.elseIfs.length s₂.arrays A fields) :
    Arena.Changes (fun _ => False) s.arrays.elseIfs A.elseIfs := by
  have h : Arena.Changes (fun _ => False) s.arrays.elseIfs s.arrays.elseIfs.alloc :=
    Arena.changes_alloc _ _
  refine h.trans_alloc ?_
  rw [← ho.elseIfs]
  exact (hg.elseIfsChange.mono fun i _ hi => hi.elim).trans ht.elseIfsChange

/-- In `A'` the open array of `s` has the `SISIf`; the rest is as in `A`, where the branches end. -/
structure IfAdded (s : GenState) (node : IfNode) (A A' : Arrays) : Prop where
  get : A'.ifs.get s.ifArray = s.arrays.ifs.get s.ifArray ++ [node]
  changes : Arena.Changes (· = s.ifArray) s.arrays.ifs A'.ifs
  unchanged : Arena.Changes (· = s.ifArray) A.ifs A'.ifs
  fileDescs : A'.fileDescs = A.fileDescs
  embedded : A'.embedded = A.embedded
  elseIfs : A'.elseIfs = A.elseIfs

theorem IfAdded.extends {node : IfNode} {A' : Arrays} {lo : Marks} (h : IfAdded s node A A')
    (hs : s.ifArray < lo.ifs) : Arrays.Extends lo A A' := by
  refine ⟨?_, ?_, h.unchanged.mono fun i _ hi => ?_, ?_⟩
  · rw [h.fileDescs]
    exact .refl _ _
  · rw [h.embedded]
    exact .refl _ _
  · rw [hi]
    exact hs
  · rw [h.elseIfs]
    exact .refl _ _

/-- An `IF` with its branches: the open block has one more `SISIf`. -/
theorem OpensIf.grows {s₃ : GenState} (hs : s.currentBlock.In s.arrays) (ho : OpensIf s s₁)
    (hg : Grows s₁ s₂ c) (ht : ElseIfsGrow s.arrays.elseIfs.length s₂.arrays A fields)
    (hi : IfAdded s ⟨exp, s₁.currentBlock, s.arrays.elseIfs.length⟩ A s₃.arrays)
    (hp : s₃.pointers = s.pointers) :
    Grows s s₃ (.ofIf (ifField exp c.field fields)) := by
  obtain ⟨nodes, hn, hholds⟩ := ht.elseIfs
  have hnew : s.arrays.elseIfs.length < s₁.arrays.elseIfs.length := by
    rw [ho.length_elseIfs]
    exact Nat.lt_succ_self _
  have hf := ho.fileDescs_unchanged hg
  have hemb := ho.embedded_unchanged hg
  have hlen : s.arrays.ifs.length ≤ s₂.arrays.ifs.length := by
    refine le_trans ?_ hg.ifsChange.length_le
    rw [ho.length_ifs]
    exact Nat.le_succ _
  have hext : Arrays.Extends (openMarks s s₁) A s₃.arrays := hi.extends hs.ifs
  have hle : (openMarks s s₁).Le s₂.arrays.marks :=
    ⟨hf.length_le, hemb.length_le, hlen, hg.elseIfsChange.length_le⟩
  have hle₀ : s.arrays.marks.Le (openMarks s s₁) := ⟨le_rfl, le_rfl, le_rfl, hnew.le⟩
  have hf' := hf.trans ht.fileDescsChange
  have hemb' := hemb.trans ht.embeddedChange
  have helse' := ho.elseIfs_unchanged hg ht
  rw [← hi.fileDescs] at hf'
  rw [← hi.embedded] at hemb'
  rw [← hi.elseIfs] at helse'
  have hif : HoldsIfs s₃.arrays s.arrays.marks [⟨exp, s₁.currentBlock, s.arrays.elseIfs.length⟩]
      [ifField exp c.field fields] := by
    refine .cons ?_ le_rfl ?_ ?_ .nil
    · exact (((ho.holds hg).extend (ht.extends hnew)).extend hext).mono hle₀
    · rw [hi.elseIfs]
      exact lt_of_lt_of_le hnew (hg.elseIfsChange.length_le.trans ht.elseIfsChange.length_le)
    · have hempty : s₂.arrays.elseIfs.get s.arrays.elseIfs.length = [] := by
        rw [hg.elseIfsChange.get_eq _ hnew not_false, ho.elseIfs, Arena.get_alloc,
          Arena.get_of_le le_rfl]
      rw [hi.elseIfs, hn, hempty, List.nil_append]
      exact ((hholds.mono hle).extend hext).mono hle₀
  refine ⟨hp, ?_, ?_, ⟨_, hi.get, hif⟩, hf'.mono fun i _ hi => hi.elim,
    hemb'.mono fun i _ hi => hi.elim, hi.changes, helse'⟩
  · exact (hf'.get_eq _ hs.fileDescs not_false).trans (List.append_nil _).symm
  · exact (hemb'.get_eq _ hs.embedded not_false).trans (List.append_nil _).symm

end

/-! ### The steps of the walk -/

/-- The walk over `nodes` computes `r`: it stops where `r` does, and goes on behind `nodes` with what
`r` leaves and a state related to what `r` returns. -/
def Simulates {α : Type} (ctx : GenContext) (nodes : List PKGLINENODE) (s : GenState)
    (r : Res (α × Supplies)) (R : GenState → α → Prop) : Prop :=
  ∀ rest n, (nodes ++ rest).length ≤ n →
    (∀ e, r = .error e → genLoop ctx n (nodes ++ rest) s = .error e) ∧
    ∀ a t, r = .ok (a, t) → ∃ s' m, rest.length ≤ m ∧
      genLoop ctx n (nodes ++ rest) s = genLoop ctx m rest s' ∧ s'.supplies = t ∧ R s' a

section
variable {α β : Type} {ctx : GenContext} {nodes nodes' : List PKGLINENODE} {s : GenState}
  {R : GenState → α → Prop} {R' : GenState → β → Prop}

theorem Simulates.nil {a : α} (h : R s a) : Simulates ctx [] s (.ok (a, s.supplies)) R := by
  refine fun rest n hn => ⟨fun e he => ?_, fun a' t ht => ?_⟩
  · cases he
  · cases ht
    exact ⟨s, n, hn, rfl, rfl, h⟩

variable {r : Res (α × Supplies)}

theorem Simulates.bind {f : α × Supplies → Res (β × Supplies)} (h : Simulates ctx nodes s r R)
    (hf : ∀ a s', R s' a → Simulates ctx nodes' s' (f (a, s'.supplies)) R') :
    Simulates ctx (nodes ++ nodes') s (r >>= f) R' := by
  intro rest n hn
  rw [List.append_assoc] at hn ⊢
  obtain ⟨herr, hok⟩ := h (nodes' ++ rest) n hn
  rcases r with e | ⟨a, t⟩
  · refine ⟨fun e' he => ?_, fun b t ht => ?_⟩
    · cases he
      exact herr e rfl
    · cases ht
  · obtain ⟨s', m, hm, heq, rfl, hR⟩ := hok a t rfl
    rw [heq]
    exact hf a s' hR rest m hm

theorem Simulates.map (g : α → β) (h : Simulates ctx nodes s r R) (hg : ∀ a s', R s' a → R' s' (g a)) :
    Simulates ctx nodes s (r >>= fun x => .ok (g x.1, x.2)) R' := by
  have hbind : Simulates ctx (nodes ++ []) s (r >>= fun x => .ok (g x.1, x.2)) R' :=
    h.bind fun a s' ha => .nil (hg a s' ha)
  rwa [List.append_nil] at hbind

theorem Simulates.cons {node : PKGLINENODE} (s₁ : GenState)
    (hline : ∀ rest, genLine ctx node rest s = .ok (rest, s₁)) (h : Simulates ctx nodes s₁ r R) :
    Simulates ctx (node :: nodes) s r R := by
  intro rest n hn
  obtain ⟨m, rfl⟩ : ∃ m, n = m + 1 := ⟨n - 1, by simp at hn; omega⟩
  have heq : genLoop ctx (m + 1) (node :: nodes ++ rest) s = genLoop ctx m (nodes ++ rest) s₁ := by
    show (genLine ctx node (nodes ++ rest) s >>= _) = _
    rw [hline]
    rfl
  rw [heq]
  exact h rest m (by simpa using hn)

theorem Simulates.of_genLine {node : PKGLINENODE}
    (herr : ∀ rest e, r = .error e → genLine ctx node (nodes ++ rest) s = .error e)
    (hok : ∀ rest a t, r = .ok (a, t) → ∃ s', genLine ctx node (nodes ++ rest) s = .ok (rest, s') ∧
      s'.supplies = t ∧ R s' a) :
    Simulates ctx (node :: nodes) s r R := by
  intro rest n hn
  obtain ⟨m, rfl⟩ : ∃ m, n = m + 1 := ⟨n - 1, by simp at hn; omega⟩
  have heq : genLoop ctx (m + 1) (node :: nodes ++ rest) s =
      genLine ctx node (nodes ++ rest) s >>= fun x => genLoop ctx m x.1 x.2 := rfl
  refine ⟨fun e he => ?_, fun a t ht => ?_⟩
  · rw [heq, herr rest e he]
    rfl
  · obtain ⟨s', hs', hsup, hR⟩ := hok rest a t ht
    refine ⟨s', m, ?_, ?_, hsup, hR⟩
    · simp at hn
      omega
    · rw [heq, hs']
      rfl

/-- One turn with a computation `x` in it. -/
theorem Simulates.of_turn {γ : Type} {node : PKGLINENODE} (x : Res γ) (g : γ → GenState) (h : γ → α)
    (hline : ∀ rest, genLine ctx node rest s = x >>= fun y => .ok (rest, g y))
    (hR : ∀ y, R (g y) (h y)) :
    Simulates ctx [node] s (x >>= fun y => .ok (h y, (g y).supplies)) R := by
  show Simulates ctx (node :: []) s _ R
  refine .of_genLine (fun rest e he => ?_) fun rest a t ht => ?_
  · rw [List.nil_append, hline]
    rcases x with e' | y
    · exact congrArg Except.error (Except.error.inj he)
    · cases he
  · rw [List.nil_append, hline]
    rcases x with e' | y
    · cases ht
    · cases ht
      exact ⟨g y, rfl, rfl, hR y⟩

end

/-! ### The lines -/

section
variable {s : GenState} {ctx : GenContext}

theorem grows_addToBlock (hs : s.currentBlock.In s.arrays) (t : Supplies)
    (field : SISField ⊕ SISField) :
    Grows s ((s.withSupplies t).addToBlock s.currentBlock field) (.single field) := by
  rcases field with controller | fileDesc
  · refine ⟨rfl, (List.append_nil _).symm, Arena.get_push_self hs.embedded _,
      ⟨[], (List.append_nil _).symm, .nil⟩, .refl _ _, ?_, .refl _ _, .refl _ _⟩
    exact Arena.changes_push (p := (· = s.embeddedArray)) _ rfl _
  · refine ⟨rfl, Arena.get_push_self hs.fileDescs _, (List.append_nil _).symm,
      ⟨[], (List.append_nil _).symm, .nil⟩, ?_, .refl _ _, .refl _ _, .refl _ _⟩
    exact Arena.changes_push (p := (· = s.fileDescArray)) _ rfl _

/-- A new block that the walk enters, as the next branch of an `IF`. -/
def GenState.branch (s : GenState) (elseIfArray : ℕ) (exp : SISField) : GenState :=
  (s.newBlock.2.enterBlock s.newBlock.1).addElseIf elseIfArray ⟨exp, s.newBlock.1⟩

theorem opens_branch (s : GenState) (elseIfArray : ℕ) (exp : SISField) :
    Opens s (s.branch elseIfArray exp) := by
  refine ⟨rfl, rfl, rfl, Arena.length_alloc _, ?_⟩
  show s.arrays.ifs.alloc.get s.arrays.ifs.length = []
  rw [Arena.get_alloc, Arena.get_of_le le_rfl]

theorem elseIfsGrow_language {elseIfArray : ℕ} {A : Arrays} {fields : List SISField}
    (he : elseIfArray < s.arrays.elseIfs.length) (t : Supplies) (field : SISField ⊕ SISField)
    (exp : SISField)
    (ht : ElseIfsGrow elseIfArray (((s.newBlock.2.withSupplies t).addToBlock s.newBlock.1 field).addElseIf
      elseIfArray ⟨exp, s.newBlock.1⟩).arrays A fields) :
    ElseIfsGrow elseIfArray s.arrays A (elseIfField exp (Contents.single field).field :: fields) := by
  have ho := opens_branch s elseIfArray exp
  refine .cons he ho rfl rfl (grows_addToBlock ho.ready t field) ?_
  rcases field with controller | fileDesc
  · exact ht
  · exact ht

/-- The blocks for the languages are built as the tree has them. -/
theorem languageElseIfs_builds (ctx : GenContext) (elseIfArray : ℕ) (rest : List PKGLINENODE) :
    ∀ (langCodes : List UInt32) (files : List PKGLINEFILE) (s : GenState),
      files.length = langCodes.length → elseIfArray < s.arrays.elseIfs.length →
      (∀ e, languageBlocks ctx langCodes files s.supplies = .error e →
        languageElseIfs ctx elseIfArray langCodes (files.map .languageFile ++ rest) s = .error e) ∧
      ∀ blocks t, languageBlocks ctx langCodes files s.supplies = .ok (blocks, t) →
        ∃ s', languageElseIfs ctx elseIfArray langCodes (files.map .languageFile ++ rest) s =
            .ok (rest, s') ∧ s'.supplies = t ∧ s'.pointers = s.pointers ∧
          ElseIfsGrow elseIfArray s.arrays s'.arrays (blocks.map fun b => elseIfField b.1 b.2)
  | [], [], s, _, _ => by
    refine ⟨fun e he => ?_, fun blocks t hb => ?_⟩
    · cases he
    · cases hb
      exact ⟨s, rfl, rfl, rfl, .refl _ _⟩
  | langCode :: langCodes, file :: files, s, hlen, he => by
    have hstep : languageElseIfs ctx elseIfArray (langCode :: langCodes)
        ((file :: files).map .languageFile ++ rest) s =
      addFile ctx file true s.supplies >>= fun x => languageElseIfs ctx elseIfArray langCodes
        (files.map .languageFile ++ rest)
        (((s.newBlock.2.withSupplies x.2).addToBlock s.newBlock.1 x.1).addElseIf elseIfArray
          ⟨languageExpression langCode, s.newBlock.1⟩) := rfl
    rw [hstep, languageBlocks]
    rcases addFile ctx file true s.supplies with e | ⟨field, t⟩
    · refine ⟨fun e' he' => ?_, fun blocks t hb => ?_⟩
      · cases he'
        rfl
      · cases hb
    · have hsup : (((s.newBlock.2.withSupplies t).addToBlock s.newBlock.1 field).addElseIf elseIfArray
          ⟨languageExpression langCode, s.newBlock.1⟩).supplies = t := by
        rcases field with controller | fileDesc <;> rfl
      have hp : (((s.newBlock.2.withSupplies t).addToBlock s.newBlock.1 field).addElseIf elseIfArray
          ⟨languageExpression langCode, s.newBlock.1⟩).pointers = s.pointers := by
        rcases field with controller | fileDesc <;> rfl
      have hlt : elseIfArray < (((s.newBlock.2.withSupplies t).addToBlock s.newBlock.1 field).addElseIf
          elseIfArray ⟨languageExpression langCode, s.newBlock.1⟩).arrays.elseIfs.length := by
        rcases field with controller | fileDesc
        all_goals
          show elseIfArray < (s.arrays.elseIfs.push _ _).length
          rw [Arena.length_push]
          exact he
      obtain ⟨herr, hok⟩ := languageElseIfs_builds ctx elseIfArray rest langCodes files _
        (Nat.succ.inj hlen) hlt
      rw [hsup] at herr hok
      show (∀ e, (languageBlocks ctx langCodes files t >>= _) = _ → _) ∧
        ∀ blocks t', (languageBlocks ctx langCodes files t >>= _) = _ → _
      rcases hblocks : languageBlocks ctx langCodes files t with e | ⟨blocks, t'⟩
      · refine ⟨fun e' he' => ?_, fun blocks t hb => ?_⟩
        · cases he'
          exact herr e hblocks
        · cases hb
      · refine ⟨fun e' he' => ?_, fun blocks' t hb => ?_⟩
        · cases he'
        · cases hb
          obtain ⟨s', hs', hsup', hp', hgrow⟩ := hok blocks t' hblocks
          exact ⟨s', hs', hsup', hp'.trans hp, elseIfsGrow_language he t field _ hgrow⟩

/-- A file for each language: an `IF` over the languages in the open block. -/
theorem languageFiles_simulates {files : List PKGLINEFILE} (hs : s.currentBlock.In s.arrays)
    (hlen : files.length = ctx.langCodes.length) (hne : ctx.langCodes ≠ []) :
    Simulates ctx (files.map .languageFile) s (lineBuild ctx (.languageFiles files) s.supplies)
      (Grows s) := by
  obtain ⟨langCode, langCodes, hcodes⟩ := List.exists_cons_of_ne_nil hne
  rw [hcodes] at hlen
  rcases files with _ | ⟨file, files⟩
  · cases hlen
  set s₁ := s.newElseIfs.2.newBlock.2.enterBlock s.newBlock.1 with hs₁
  have ho : OpensIf s s₁ := by
    refine ⟨⟨rfl, rfl, rfl, Arena.length_alloc _, ?_⟩, rfl⟩
    show s.arrays.ifs.alloc.get s.arrays.ifs.length = []
    rw [Arena.get_alloc, Arena.get_of_le le_rfl]
  have hline : ∀ rest, genLine ctx (.languageFile file) (files.map .languageFile ++ rest) s =
      addFile ctx file true s.supplies >>= fun x =>
        languageElseIfs ctx s.arrays.elseIfs.length langCodes (files.map .languageFile ++ rest)
          ((s.newElseIfs.2.newBlock.2.withSupplies x.2).addToBlock s.newBlock.1 x.1) >>= fun y =>
        .ok (y.1, y.2.addIf y.2.ifArray
          ⟨languageExpression langCode, s.newBlock.1, s.arrays.elseIfs.length⟩) := by
    intro rest
    show languageFile ctx file _ s = _
    rw [languageFile, hcodes]
    rfl
  have hbuild : lineBuild ctx (.languageFiles (file :: files)) s.supplies =
      addFile ctx file true s.supplies >>= fun x => languageBlocks ctx langCodes files x.2 >>= fun y =>
        .ok (.ofIf (ifField (languageExpression langCode) (Contents.single x.1).field
          (y.1.map fun b => elseIfField b.1 b.2)), y.2) := by
    rw [lineBuild, hcodes, languageBlocks]
    rcases addFile ctx file true s.supplies with e | ⟨field, t⟩
    · rfl
    · show (languageBlocks ctx langCodes files t >>= _) >>= _ = languageBlocks ctx langCodes files t >>= _
      rcases languageBlocks ctx langCodes files t with e | ⟨blocks, t'⟩
      · rfl
      · rfl
  rw [hbuild]
  rcases hadd : addFile ctx file true s.supplies with e | ⟨field, t⟩
  · refine .of_genLine (fun rest e' he => ?_) fun rest a t ht => ?_
    · cases he
      rw [hline, hadd]
      rfl
    · cases ht
  set s₂ := (s₁.withSupplies t).addToBlock s₁.currentBlock field with hs₂
  set sₐ := (s.newElseIfs.2.newBlock.2.withSupplies t).addToBlock s.newBlock.1 field with hsₐ
  have hg : Grows s₁ s₂ (.single field) := grows_addToBlock ho.ready t field
  have harrays : sₐ.arrays = s₂.arrays := by
    rcases field with controller | fileDesc <;> rfl
  have hsup : sₐ.supplies = t := by
    rcases field with controller | fileDesc <;> rfl
  have hp : sₐ.pointers = s.pointers := by
    rcases field with controller | fileDesc <;> rfl
  have hifs : sₐ.arrays.ifs = s.arrays.ifs.alloc := by
    rcases field with controller | fileDesc <;> rfl
  have hnew : s.arrays.elseIfs.length < sₐ.arrays.elseIfs.length := by
    rw [harrays]
    refine lt_of_lt_of_le ?_ hg.elseIfsChange.length_le
    rw [ho.length_elseIfs]
    exact Nat.lt_succ_self _
  have hspec := fun rest => languageElseIfs_builds ctx s.arrays.elseIfs.length rest langCodes
    files sₐ (Nat.succ.inj hlen) hnew
  rw [hsup] at hspec
  show Simulates ctx (.languageFile file :: files.map .languageFile) s
    (languageBlocks ctx langCodes files t >>= _) _
  rcases hblocks : languageBlocks ctx langCodes files t with e | ⟨blocks, t'⟩
  · refine .of_genLine (fun rest e' he => ?_) fun rest a t ht => ?_
    · cases he
      rw [hline, hadd]
      show languageElseIfs ctx _ langCodes _ sₐ >>= _ = _
      rw [(hspec rest).1 e hblocks]
      rfl
    · cases ht
  · refine .of_genLine (fun rest e' he => ?_) fun rest a t ht => ?_
    · cases he
    · cases ht
      obtain ⟨s', hs', hsup', hp', hgrow⟩ := (hspec rest).2 blocks t' hblocks
      have hptr := hp'.trans hp
      have hifArray : s'.ifArray = s.ifArray :=
        congrArg (fun p => p.1.ifArray) hptr
      refine ⟨s'.addIf s'.ifArray ⟨languageExpression langCode, s.newBlock.1, s.arrays.elseIfs.length⟩,
        ?_, hsup', ?_⟩
      · rw [hline, hadd]
        show languageElseIfs ctx _ langCodes _ sₐ >>= _ = _
        rw [hs']
        rfl
      · rw [hifArray]
        rw [harrays] at hgrow
        refine ho.grows hs hg hgrow ?_ hptr
        have hch : Arena.Changes (fun _ => False) s.arrays.ifs s'.arrays.ifs := by
          have h := hgrow.ifsChange
          rw [← harrays, hifs] at h
          exact (Arena.changes_alloc _ _).trans h
        refine ⟨?_, ?_, ?_, rfl, rfl, rfl⟩
        · show (s'.arrays.ifs.push s.ifArray _).get s.ifArray = _
          have hlt : s.ifArray < s'.arrays.ifs.length := lt_of_lt_of_le hs.ifs hch.length_le
          rw [Arena.get_push_self hlt, hch.get_eq s.ifArray hs.ifs not_false]
          rfl
        · exact (hch.mono fun i _ hi => hi.elim).trans
            (Arena.changes_push (p := (· = s.ifArray)) _ rfl _)
        · exact Arena.changes_push (p := (· = s.ifArray)) _ rfl _

theorem line_simulates (l : Line) (hl : l.ForLanguages ctx.langCodes.length) (hne : ctx.langCodes ≠ [])
    (hs : s.currentBlock.In s.arrays) :
    Simulates ctx l.nodes s (lineBuild ctx l s.supplies) (Grows s) := by
  rcases l with file | files | option
  · let next : (SISField ⊕ SISField) × Supplies → GenState := fun y =>
      (s.withSupplies y.2).addToBlock s.currentBlock y.1
    have hsup : ∀ y, (next y).supplies = y.2 := by
      rintro ⟨controller | fileDesc, t⟩ <;> rfl
    have hturn : Simulates ctx [.file file] s (addFile ctx file false s.supplies >>= fun y =>
        .ok (Contents.single y.1, (next y).supplies)) (Grows s) :=
      .of_turn _ next _ (fun rest => rfl) fun y => grows_addToBlock hs y.2 y.1
    simp only [hsup] at hturn
    exact hturn
  · exact languageFiles_simulates hs hl hne
  · exact Simulates.of_turn
      (optionFields ctx.langCodes.length option.dwNumOptions option.pLangStringBase)
      (fun options => { s with optionsArray := s.optionsArray ++ options }) (fun _ => Contents.empty)
      (fun rest => rfl) fun options =>
        ⟨rfl, (List.append_nil _).symm, (List.append_nil _).symm,
          ⟨[], (List.append_nil _).symm, .nil⟩, .refl _ _, .refl _ _, .refl _ _, .refl _ _⟩

end

/-! ### The markers -/

/-- `s` is inside a branch of an `IF` of the block open in `s₀`. -/
structure Inside (s₀ : GenState) (elseIfArray : ℕ) (s : GenState) : Prop where
  elseIfArray : s.elseIfArray = some elseIfArray
  fileDescArrays : s.fileDescArrays = s₀.fileDescArray :: s₀.fileDescArrays
  embeddedArrays : s.embeddedArrays = s₀.embeddedArray :: s₀.embeddedArrays
  ifArrays : s.ifArrays = s₀.ifArray :: s₀.ifArrays
  elseIfArrays : s.elseIfArrays = s₀.elseIfArray :: s₀.elseIfArrays

section
variable {s₀ s s' : GenState} {elseIfArray : ℕ} {exp : SISField} {c : Contents}

theorem Inside.grows (h : Inside s₀ elseIfArray s) (hg : Grows s s' c) : Inside s₀ elseIfArray s' := by
  have hp := hg.pointers
  simp only [GenState.pointers, Prod.mk.injEq] at hp
  obtain ⟨-, he, hf, hemb, hi, hes⟩ := hp
  exact ⟨he.trans h.elseIfArray, hf.trans h.fileDescArrays, hemb.trans h.embeddedArrays,
    hi.trans h.ifArrays, hes.trans h.elseIfArrays⟩

theorem condIf_ifs (exp : SISField) (s : GenState) : (condIf exp s).arrays.ifs =
    s.arrays.ifs.alloc.push s.ifArray
      ⟨exp, (condIf exp s).currentBlock, s.arrays.elseIfs.length⟩ := rfl

theorem condIf_ifArray (exp : SISField) (s : GenState) :
    (condIf exp s).ifArray = s.arrays.ifs.length := rfl

theorem opensIf_condIf (exp : SISField) (hs : s.currentBlock.In s.arrays) :
    OpensIf s (condIf exp s) := by
  refine ⟨⟨rfl, rfl, rfl, ?_, ?_⟩, rfl⟩
  · rw [condIf_ifs, Arena.length_push, Arena.length_alloc]
  · rw [condIf_ifs, condIf_ifArray, Arena.get_push_of_ne (i := s.ifArray) (Nat.ne_of_gt hs.ifs),
      Arena.get_alloc, Arena.get_of_le le_rfl]

/-- The walk over the branches leaves the `SISIf` in the array that was open before. -/
theorem ifAdded_condIf {fields : List SISField} {A : Arrays} (hs : s.currentBlock.In s.arrays)
    (hg : Grows (condIf exp s) s' c)
    (ht : ElseIfsGrow s.arrays.elseIfs.length s'.arrays A fields) :
    IfAdded s ⟨exp, (condIf exp s).currentBlock, s.arrays.elseIfs.length⟩ A A := by
  have h₁ : Arena.Changes (· = s.ifArray) s.arrays.ifs (condIf exp s).arrays.ifs := by
    rw [condIf_ifs]
    exact (Arena.changes_alloc _ _).trans (Arena.changes_push (p := (· = s.ifArray)) _ rfl _)
  -- the body has its own array
  have hother : ∀ i, i < s.arrays.ifs.length →
      A.ifs.get i = (condIf exp s).arrays.ifs.get i := by
    intro i hi
    have hi₁ := lt_of_lt_of_le hi h₁.length_le
    rw [ht.ifsChange.get_eq i (lt_of_lt_of_le hi₁ hg.ifsChange.length_le) not_false,
      hg.ifsChange.get_eq i hi₁ (Nat.ne_of_lt hi)]
  refine ⟨?_, ⟨?_, fun i hi hne => ?_⟩, .refl _ _, rfl, rfl, rfl⟩
  · have hlt : s.ifArray < s.arrays.ifs.alloc.length := by
      rw [Arena.length_alloc]
      exact hs.ifs.trans (Nat.lt_succ_self _)
    rw [hother s.ifArray hs.ifs, condIf_ifs, Arena.get_push_self hlt, Arena.get_alloc]
  · exact h₁.length_le.trans (hg.ifsChange.length_le.trans ht.ifsChange.length_le)
  · rw [hother i hi, h₁.get_eq i hi hne]

theorem inside_condIf (exp : SISField) (s : GenState) :
    Inside s s.arrays.elseIfs.length (condIf exp s) := ⟨rfl, rfl, rfl, rfl, rfl⟩

theorem condElseIf_eq (exp : SISField) (h : Inside s₀ elseIfArray s) :
    condElseIf exp s = .ok (s.branch elseIfArray exp) := by
  obtain ⟨he, hf, hemb, hi, -⟩ := h
  rcases s with ⟨A, f, e, i, ei, fs, es, is, eis, index, fileData, units, options⟩
  cases he
  cases hf
  cases hemb
  cases hi
  rfl

theorem condEndIf_eq (h : Inside s₀ elseIfArray s) :
    ∃ s', condEndIf s = .ok s' ∧ s'.arrays = s.arrays ∧ s'.supplies = s.supplies ∧
      s'.pointers = s₀.pointers := by
  obtain ⟨-, hf, hemb, hi, hes⟩ := h
  rcases s with ⟨A, f, e, i, ei, fs, es, is, eis, index, fileData, units, options⟩
  cases hf
  cases hemb
  cases hi
  cases hes
  exact ⟨_, rfl, rfl, rfl, rfl⟩

theorem Inside.branch (h : Inside s₀ elseIfArray s) (exp : SISField) :
    Inside s₀ elseIfArray (s.branch elseIfArray exp) :=
  ⟨h.elseIfArray, h.fileDescArrays, h.embeddedArrays, h.ifArrays, h.elseIfArrays⟩

end

/-! ### The simulation -/

section
variable {ctx : GenContext}

mutual
/-- The walk over the nodes of a block adds to the open block what the block spells. -/
theorem block_simulates (hne : ctx.langCodes ≠ []) : ∀ (b : Block Line PKGLINECONDITION)
    (s : GenState), b.All (Line.ForLanguages ctx.langCodes.length) → s.currentBlock.In s.arrays →
    Simulates ctx b.nodes s (blockBuild ctx b s.supplies) (Grows s)
  | .nil, s, _, _ => by
    rw [Block.nodes, blockBuild]
    exact .nil (.refl s)
  | .cons item rest, s, hb, hs => by
    rw [Block.nodes, blockBuild]
    refine (item_simulates hne item s hb.1 hs).bind fun c s₁ hc => ?_
    exact (block_simulates hne rest s₁ hb.2 (hc.ready hs)).map (fun d => c.append d)
      fun d s₂ hd => hc.trans hs hd
theorem item_simulates (hne : ctx.langCodes ≠ []) : ∀ (item : Item Line PKGLINECONDITION)
    (s : GenState), item.All (Line.ForLanguages ctx.langCodes.length) → s.currentBlock.In s.arrays →
    Simulates ctx item.nodes s (itemBuild ctx item s.supplies) (Grows s)
  | .line l, s, hl, hs => line_simulates l hl hne hs
  | .ifBlock cond body tail, s, hb, hs => by
    rw [Item.nodes, itemBuild]
    have ho := opensIf_condIf (GetExpression cond) hs
    refine .cons (condIf (GetExpression cond) s) (fun rest => rfl) ?_
    refine (block_simulates hne body _ hb.1 ho.ready).bind fun c s₂ hc => ?_
    have hin := (inside_condIf (GetExpression cond) s).grows hc
    have hlt : s.arrays.elseIfs.length < s₂.arrays.elseIfs.length := by
      refine lt_of_lt_of_le ?_ hc.elseIfsChange.length_le
      rw [ho.length_elseIfs]
      exact Nat.lt_succ_self _
    exact (tail_simulates hne tail s _ s₂ hb.2 hin hlt).map
      (fun elseIfs => Contents.ofIf (ifField (GetExpression cond) c.field elseIfs))
      fun elseIfs s₃ ⟨hp, hgrow⟩ => ho.grows hs hc hgrow (ifAdded_condIf hs hc hgrow) hp
/-- The walk over the branches behind the body of an `IF` fills its array and closes it. -/
theorem tail_simulates (hne : ctx.langCodes ≠ []) : ∀ (tail : Tail Line PKGLINECONDITION)
    (s₀ : GenState) (elseIfArray : ℕ) (s : GenState),
    tail.All (Line.ForLanguages ctx.langCodes.length) → Inside s₀ elseIfArray s →
    elseIfArray < s.arrays.elseIfs.length →
    Simulates ctx tail.nodes s (tailBuild ctx tail s.supplies) fun s' elseIfs =>
      s'.pointers = s₀.pointers ∧ ElseIfsGrow elseIfArray s.arrays s'.arrays elseIfs
  | .endIf, s₀, e, s, _, hin, _ => by
    rw [Tail.nodes, tailBuild]
    obtain ⟨s', hs', harrays, hsup, hp⟩ := condEndIf_eq hin
    refine .cons s' (fun rest => ?_) ?_
    · show condEndIf s >>= _ = _
      rw [hs']
      rfl
    · rw [← hsup]
      exact .nil ⟨hp, harrays ▸ .refl _ _⟩
  | .elseIf cond body tail, s₀, e, s, hb, hin, he => by
    rw [Tail.nodes, tailBuild]
    have ho := opens_branch s e (GetExpression cond)
    refine .cons (s.branch e (GetExpression cond)) (fun rest => ?_) ?_
    · show condElseIf _ s >>= _ = _
      rw [condElseIf_eq _ hin]
      rfl
    refine (block_simulates hne body _ hb.1 ho.ready).bind fun c s₂ hc => ?_
    have hlt : e < s₂.arrays.elseIfs.length := by
      refine lt_of_lt_of_le ?_ hc.elseIfsChange.length_le
      show e < (s.arrays.elseIfs.push e _).length
      rw [Arena.length_push]
      exact he
    exact (tail_simulates hne tail s₀ e s₂ hb.2 ((hin.branch _).grows hc) hlt).map
      (fun elseIfs => elseIfField (GetExpression cond) c.field :: elseIfs)
      fun elseIfs s₃ ⟨hp, hgrow⟩ => ⟨hp, .cons he ho rfl rfl hc hgrow⟩
  | .els body, s₀, e, s, hb, hin, he => by
    rw [Tail.nodes, tailBuild]
    have ho := opens_branch s e elseExpression
    refine .cons (s.branch e elseExpression) (fun rest => ?_) ?_
    · show condElseIf _ s >>= _ = _
      rw [condElseIf_eq _ hin]
      rfl
    refine (block_simulates hne body _ hb ho.ready).bind fun c s₂ hc => ?_
    obtain ⟨s', hs', harrays, hsup, hp⟩ := condEndIf_eq ((hin.branch elseExpression).grows hc)
    refine .cons s' (fun rest => ?_) ?_
    · show condEndIf s₂ >>= _ = _
      rw [hs']
      rfl
    · show Simulates ctx [] s' (.ok (_, s₂.supplies)) _
      rw [← hsup]
      exact .nil ⟨hp, .cons he ho rfl rfl hc (harrays ▸ .refl _ _)⟩
end

theorem genStart_ready (index : UInt32) (fileDataArray : List SISField) :
    (genStart index fileDataArray).currentBlock.In (genStart index fileDataArray).arrays :=
  ⟨Nat.one_pos, Nat.one_pos, Nat.one_pos⟩

theorem Grows.topBlock {index : UInt32} {fileDataArray : List SISField} {s : GenState} {c : Contents}
    (h : Grows (genStart index fileDataArray) s c) : s.topBlock = c.field := by
  obtain ⟨nodes, hn, hholds⟩ := h.ifs
  have hready := h.ready (genStart_ready index fileDataArray)
  have hblock : HoldsBlock s.arrays ⟨0, 0, 0, 0⟩ s.currentBlock c := by
    rw [h.currentBlock] at hready ⊢
    refine .mk ⟨Nat.zero_le _, Nat.zero_le _, Nat.zero_le _⟩ hready h.files h.embedded ?_
    show HoldsIfs s.arrays _ (s.arrays.ifs.get (genStart index fileDataArray).ifArray) c.ifs
    rw [hn]
    exact hholds.mono ⟨le_rfl, le_rfl, le_rfl, le_rfl⟩
  exact hblock.installBlock _ (Nat.le_add_right _ _)

/-- **The walk.** On the nodes of a block the loop of `GenerateSISFile` ends with the install block
that the block spells, or stops where the block does. -/
theorem genLoop_nodes (hne : ctx.langCodes ≠ []) (b : Block Line PKGLINECONDITION)
    (hb : b.All (Line.ForLanguages ctx.langCodes.length)) (index : UInt32)
    (fileDataArray : List SISField) :
    (genLoop ctx b.nodes.length b.nodes (genStart index fileDataArray)).map
        (fun s => (s.topBlock, s.supplies)) =
      (blockBuild ctx b ⟨index, fileDataArray, [], []⟩).map fun x => (x.1.field, x.2) := by
  obtain ⟨herr, hok⟩ := block_simulates hne b _ hb (genStart_ready index fileDataArray) [] b.nodes.length
    (by rw [List.append_nil])
  rw [List.append_nil] at herr hok
  show _ = (blockBuild ctx b (genStart index fileDataArray).supplies).map _
  rcases hbuild : blockBuild ctx b (genStart index fileDataArray).supplies with e | ⟨c, t⟩
  · rw [herr e hbuild]
    rfl
  · obtain ⟨s, m, -, hs, hsup, hgrow⟩ := hok c t hbuild
    rw [hs, genLoop, ← hsup]
    show Except.ok (s.topBlock, s.supplies) = Except.ok (c.field, s.supplies)
    rw [hgrow.topBlock]

end

end GnuPoc.Sis
