import GnuPoc.Crtsis.Package

/-!
# GnuPoc.Crtsis.ParsedLines — the package lines that the parser hands over (`parsepkg.cpp`)

The parser adds every line in front of the list of the writer.  The lines it accepts are those of a nesting: a tree of
lines and of `IF` blocks, whose markers stand around the lines of their branches.
-/

namespace GnuPoc.Crtsis

/-! ### The nesting of the lines -/

/-- A line that is not a condition. -/
inductive PlainLine
  | EInstPkgLineFile (file : PkgLineFile)
  | EInstPkgLineLanguageFile (file : PkgLineFile)
  | EInstPkgLineOption (option : PkgLineOptions)
  deriving DecidableEq

def PlainLine.node : PlainLine → PkgLineNode
  | EInstPkgLineFile f => .EInstPkgLineFile f
  | EInstPkgLineLanguageFile f => .EInstPkgLineLanguageFile f
  | EInstPkgLineOption o => .EInstPkgLineOption o

mutual

/-- The lines of the package, or of a branch. -/
inductive Lines
  | empty
  | plain (line : PlainLine) (next : Lines)
  | block (cond : PkgLineCondition) (first : Lines) (others : Branches) (next : Lines)

/-- The branches behind the first one of a block. -/
inductive Branches
  | ENDIF
  | ELSE (lines : Lines)
  | ELSEIF (cond : PkgLineCondition) (lines : Lines) (others : Branches)

end

mutual

/-- The nodes in the order of the package file. -/
def Lines.nodes : Lines → List PkgLineNode
  | .empty => []
  | .plain line next => line.node :: next.nodes
  | .block cond first others next => .EInstPkgLineCondIf cond :: (first.nodes ++ (others.nodes ++ next.nodes))

def Branches.nodes : Branches → List PkgLineNode
  | .ENDIF => [.EInstPkgLineCondEndIf]
  | .ELSE lines => .EInstPkgLineCondElse :: (lines.nodes ++ [.EInstPkgLineCondEndIf])
  | .ELSEIF cond lines others => .EInstPkgLineCondElseIf cond :: (lines.nodes ++ others.nodes)

end

namespace Lines

def append : Lines → Lines → Lines
  | .empty, lines => lines
  | .plain line next, lines => .plain line (next.append lines)
  | .block cond first others next, lines => .block cond first others (next.append lines)

def ofPlain (lines : List PlainLine) (next : Lines) : Lines := lines.foldr .plain next

theorem nodes_append : ∀ a b : Lines, (a.append b).nodes = a.nodes ++ b.nodes
  | .empty, _ => rfl
  | .plain line next, b => by
    rw [append, nodes, nodes, nodes_append next b, List.cons_append]
  | .block cond first others next, b => by
    rw [append, nodes, nodes, nodes_append next b, List.cons_append, List.append_assoc, List.append_assoc]

theorem nodes_ofPlain (lines : List PlainLine) (next : Lines) :
    (ofPlain lines next).nodes = lines.map PlainLine.node ++ next.nodes := by
  induction lines with
  | nil => rfl
  | cons line lines ih =>
    rw [List.map_cons, List.cons_append, ← ih]
    rfl

end Lines

/-! ### The parser -/

/-- What stands in a package file: a line with what its own parser makes of it, or one of the words of a block. -/
inductive Statement
  | file (file : PkgLineFile)
  | package (file : PkgLineFile)
  | options (option : PkgLineOptions)
  /-- The files of a language block, one for each language. -/
  | languageBlock (files : List PkgLineFile)
  | capability
  | comment
  | IF (cond : PkgLineCondition)
  | ELSEIF (cond : PkgLineCondition)
  | ELSE
  | ENDIF
  | languages
  | header
  | dependency
  | signature
  /-- A line whose parser throws. -/
  | malformed
  /-- A token that begins no line. -/
  | unknown
  deriving DecidableEq

inductive ParseError
  | ErrUnexpectedToken
  | ErrUnknownLine
  /-- The exception of a line's own parser. -/
  | line
  | outOfFuel
  deriving DecidableEq

/-- The lines that a statement within a block adds, from the first to the last. -/
def Statement.lines? : Statement → Option (List PlainLine)
  | .file f => some [.EInstPkgLineFile f]
  | .package f => some [.EInstPkgLineFile f]
  | .options o => some [.EInstPkgLineOption o]
  | .languageBlock files => some (files.map .EInstPkgLineLanguageFile)
  | .capability => some []
  | .comment => some []
  | _ => none

/-- `AddPkgLineNode`, for one line after the other. -/
def AddPkgLineNodes (lines : List PlainLine) (m_pPkgLineBase : List PkgLineNode) : List PkgLineNode :=
  lines.foldl (fun base line => line.node :: base) m_pPkgLineBase

/-- `ExpectToken(ENDIF_TOKEN)`, and the line that ends the block. -/
def expectENDIF (ts : List Statement) (m_pPkgLineBase : List PkgLineNode) :
    Except ParseError (List Statement × List PkgLineNode) :=
  match ts with
  | .ENDIF :: ts => .ok (ts, .EInstPkgLineCondEndIf :: m_pPkgLineBase)
  | _ => .error .ErrUnexpectedToken

mutual

def ParseEmbeddedBlockL : ℕ → List Statement → List PkgLineNode →
    Except ParseError (List Statement × List PkgLineNode)
  | 0, _, _ => .error .outOfFuel
  | _ + 1, [], m_pPkgLineBase => .ok ([], m_pPkgLineBase)
  | fuel + 1, t :: ts, m_pPkgLineBase =>
    match t with
    | .IF cond => do
      let (ts, m_pPkgLineBase) ← ParseIfBlockL fuel cond ts m_pPkgLineBase
      ParseEmbeddedBlockL fuel ts m_pPkgLineBase
    | .malformed => .error .line
    | t =>
      match t.lines? with
      | some lines => ParseEmbeddedBlockL fuel ts (AddPkgLineNodes lines m_pPkgLineBase)
      | none => .ok (t :: ts, m_pPkgLineBase)

def ParseIfBlockL : ℕ → PkgLineCondition → List Statement → List PkgLineNode →
    Except ParseError (List Statement × List PkgLineNode)
  | 0, _, _, _ => .error .outOfFuel
  | fuel + 1, cond, ts, m_pPkgLineBase => do
    let (ts, m_pPkgLineBase) ← ParseEmbeddedBlockL fuel ts (.EInstPkgLineCondIf cond :: m_pPkgLineBase)
    elseIfLoop fuel ts m_pPkgLineBase

/-- The end of `ParseIfBlockL`, from the loop over the `ELSEIF`s on. -/
def elseIfLoop : ℕ → List Statement → List PkgLineNode → Except ParseError (List Statement × List PkgLineNode)
  | 0, _, _ => .error .outOfFuel
  | fuel + 1, ts, m_pPkgLineBase =>
    match ts with
    | .ELSEIF cond :: ts => do
      let (ts, m_pPkgLineBase) ← ParseEmbeddedBlockL fuel ts (.EInstPkgLineCondElseIf cond :: m_pPkgLineBase)
      elseIfLoop fuel ts m_pPkgLineBase
    | .ELSE :: ts => do
      let (ts, m_pPkgLineBase) ← ParseEmbeddedBlockL fuel ts (.EInstPkgLineCondElse :: m_pPkgLineBase)
      expectENDIF ts m_pPkgLineBase
    | ts => expectENDIF ts m_pPkgLineBase

end

/-- The loop of `ParseL`: the list of the lines.  A stub needs no more than what stands in front of the first signature;
the test behind the loop can only reject the package. -/
def ParseL (m_stubFile : Bool) : ℕ → List Statement → List PkgLineNode → Except ParseError (List PkgLineNode)
  | _, [], m_pPkgLineBase => .ok m_pPkgLineBase
  | 0, _ :: _, _ => .error .outOfFuel
  | fuel + 1, t :: ts, m_pPkgLineBase => do
    let (ts, m_pPkgLineBase) ← ParseEmbeddedBlockL fuel (t :: ts) m_pPkgLineBase
    match ts with
    | [] => .ok m_pPkgLineBase
    | .languages :: ts => ParseL m_stubFile fuel ts m_pPkgLineBase
    | .header :: ts => ParseL m_stubFile fuel ts m_pPkgLineBase
    | .dependency :: ts => ParseL m_stubFile fuel ts m_pPkgLineBase
    | .signature :: ts => if m_stubFile then .ok m_pPkgLineBase else ParseL m_stubFile fuel ts m_pPkgLineBase
    | _ :: _ => .error .ErrUnknownLine

/-! ### What the parser accepts is a nesting -/

theorem addPkgLineNodes_eq (lines : List PlainLine) (base : List PkgLineNode) :
    AddPkgLineNodes lines base = (lines.map PlainLine.node).reverse ++ base := by
  induction lines generalizing base with
  | nil => rfl
  | cons line lines ih =>
    rw [List.map_cons, List.reverse_cons, List.append_assoc]
    exact ih _

theorem expectENDIF_base {ts rest : List Statement} {base base' : List PkgLineNode}
    (h : expectENDIF ts base = .ok (rest, base')) : base' = .EInstPkgLineCondEndIf :: base := by
  unfold expectENDIF at h
  split at h
  · exact (Prod.mk.inj (Except.ok.inj h)).2.symm
  · simp at h

/-- What the parts of the parser with this fuel put in front of the list. -/
structure BlocksBuild (fuel : ℕ) : Prop where
  block : ∀ {ts rest base base'}, ParseEmbeddedBlockL fuel ts base = .ok (rest, base') →
    ∃ lines : Lines, base' = lines.nodes.reverse ++ base
  ifBlock : ∀ {cond ts rest base base'}, ParseIfBlockL fuel cond ts base = .ok (rest, base') →
    ∃ (first : Lines) (others : Branches),
      base' = (.EInstPkgLineCondIf cond :: (first.nodes ++ others.nodes)).reverse ++ base
  others : ∀ {ts rest base base'}, elseIfLoop fuel ts base = .ok (rest, base') →
    ∃ others : Branches, base' = others.nodes.reverse ++ base

theorem parse_of_bind {α β : Type} {m : Except ParseError α} {f : α → Except ParseError β} {b : β}
    (h : (m >>= f) = .ok b) : ∃ a, m = .ok a ∧ f a = .ok b := by
  rcases m with e | a
  · simp [bind, Except.bind] at h
  · exact ⟨a, rfl, h⟩

section
variable {fuel : ℕ} {ts rest : List Statement} {base base' : List PkgLineNode}

theorem parseEmbeddedBlockL_builds (ih : BlocksBuild fuel)
    (h : ParseEmbeddedBlockL (fuel + 1) ts base = .ok (rest, base')) :
    ∃ lines : Lines, base' = lines.nodes.reverse ++ base := by
  rcases ts with _ | ⟨t, ts⟩
  · rw [ParseEmbeddedBlockL] at h
    exact ⟨.empty, (Prod.mk.inj (Except.ok.inj h)).2.symm⟩
  · rw [ParseEmbeddedBlockL.eq_def] at h
    dsimp only at h
    split at h
    · next cond =>
      obtain ⟨⟨ts₁, base₁⟩, hblock, hnext⟩ := parse_of_bind h
      obtain ⟨first, others, rfl⟩ := ih.ifBlock hblock
      obtain ⟨next, rfl⟩ := ih.block hnext
      refine ⟨.block cond first others next, ?_⟩
      simp [Lines.nodes]
    · simp at h
    · split at h
      · next lines hlines =>
        obtain ⟨next, rfl⟩ := ih.block h
        refine ⟨.ofPlain lines next, ?_⟩
        rw [addPkgLineNodes_eq, Lines.nodes_ofPlain, List.reverse_append, List.append_assoc]
      · exact ⟨.empty, (Prod.mk.inj (Except.ok.inj h)).2.symm⟩

theorem parseIfBlockL_builds {cond : PkgLineCondition} (ih : BlocksBuild fuel)
    (h : ParseIfBlockL (fuel + 1) cond ts base = .ok (rest, base')) :
    ∃ (first : Lines) (others : Branches),
      base' = (.EInstPkgLineCondIf cond :: (first.nodes ++ others.nodes)).reverse ++ base := by
  rw [ParseIfBlockL] at h
  obtain ⟨⟨ts₁, base₁⟩, hfirst, hothers⟩ := parse_of_bind h
  obtain ⟨first, rfl⟩ := ih.block hfirst
  obtain ⟨others, rfl⟩ := ih.others hothers
  refine ⟨first, others, ?_⟩
  simp

theorem elseIfLoop_builds (ih : BlocksBuild fuel) (h : elseIfLoop (fuel + 1) ts base = .ok (rest, base')) :
    ∃ others : Branches, base' = others.nodes.reverse ++ base := by
  rw [elseIfLoop.eq_def] at h
  dsimp only at h
  split at h
  · next cond ts =>
    obtain ⟨⟨ts₁, base₁⟩, hlines, hothers⟩ := parse_of_bind h
    obtain ⟨lines, rfl⟩ := ih.block hlines
    obtain ⟨others, rfl⟩ := ih.others hothers
    refine ⟨.ELSEIF cond lines others, ?_⟩
    simp [Branches.nodes]
  · obtain ⟨⟨ts₁, base₁⟩, hlines, hend⟩ := parse_of_bind h
    obtain ⟨lines, rfl⟩ := ih.block hlines
    obtain rfl := expectENDIF_base hend
    refine ⟨.ELSE lines, ?_⟩
    simp [Branches.nodes]
  · obtain rfl := expectENDIF_base h
    exact ⟨.ENDIF, rfl⟩

end

theorem blocksBuild : ∀ fuel : ℕ, BlocksBuild fuel
  | 0 => {
    block := fun h => by simp [ParseEmbeddedBlockL] at h
    ifBlock := fun h => by simp [ParseIfBlockL] at h
    others := fun h => by simp [elseIfLoop] at h }
  | fuel + 1 => {
    block := parseEmbeddedBlockL_builds (blocksBuild fuel)
    ifBlock := parseIfBlockL_builds (blocksBuild fuel)
    others := elseIfLoop_builds (blocksBuild fuel) }

/-- The lines that the parser puts down are those of a nesting. -/
theorem parseL_builds {m_stubFile : Bool} : ∀ {fuel : ℕ} {ts : List Statement} {base base' : List PkgLineNode},
    ParseL m_stubFile fuel ts base = .ok base' → ∃ lines : Lines, base' = lines.nodes.reverse ++ base
  | _, [], base, base', h => by
    rw [ParseL] at h
    exact ⟨.empty, (Except.ok.inj h).symm⟩
  | 0, _ :: _, _, _, h => by
    simp [ParseL] at h
  | fuel + 1, t :: ts, base, base', h => by
    rw [ParseL] at h
    obtain ⟨⟨ts₁, base₁⟩, hblock, hrest⟩ := parse_of_bind h
    obtain ⟨lines, rfl⟩ := (blocksBuild fuel).block hblock
    have behind : ∀ {ts : List Statement}, ParseL m_stubFile fuel ts (lines.nodes.reverse ++ base) = .ok base' →
        ∃ all : Lines, base' = all.nodes.reverse ++ base := by
      intro ts h
      obtain ⟨next, rfl⟩ := parseL_builds h
      refine ⟨lines.append next, ?_⟩
      rw [Lines.nodes_append, List.reverse_append, List.append_assoc]
    dsimp only at hrest
    split at hrest
    · exact ⟨lines, (Except.ok.inj hrest).symm⟩
    · exact behind hrest
    · exact behind hrest
    · exact behind hrest
    · split at hrest
      · exact ⟨lines, (Except.ok.inj hrest).symm⟩
      · exact behind hrest
    · simp at hrest

end GnuPoc.Crtsis
