import GnuPoc.Crtsis.Memory
import GnuPoc.Crtsis.ParsedLines
import Mathlib.Data.Option.NAry

/-!
# GnuPoc.Crtsis.SpaceNeeded — the space that a package needs (`crtsis.cpp`)

The space of a nesting is the sum over its lines, in which a block counts as the largest of its branches.  The scan of
`EstimateInstallationSizeL` over the nodes comes to this number, and never leaves the nodes.
-/

namespace GnuPoc.Crtsis

open GnuPoc.Lib

/-! ### What the lines need -/

section
variable (env : Env) (disk : WString → Option Bytes)

/-- What an embedded SIS file says in its header that it needs. -/
def statedSpace (pszSource : WString) : Option ℕ :=
  match disk (sisFile env pszSource) with
  | some bytes => if 84 ≤ bytes.length then some (env.order.load ((bytes.drop 80).take 4)) else none
  | none => none

def PkgLineFile.space (f : PkgLineFile) : Option ℕ :=
  match f.type with
  | .EInstFileTypeText | .EInstFileTypeNull | .EInstFileTypeMime => some 0
  | .EInstFileTypeComponent => statedSpace env disk f.pszSource
  | .EInstFileTypeSimple | .EInstFileTypeRun => some f.dwSize.toNat

def PlainLine.space : PlainLine → Option ℕ
  | .EInstPkgLineFile f => f.space env disk
  | .EInstPkgLineLanguageFile f => f.space env disk
  | .EInstPkgLineOption _ => some 0

mutual

/-- The sum over the lines; none where an embedded file has no header. -/
def Lines.space : Lines → Option ℕ
  | .empty => some 0
  | .plain line next => Option.map₂ (· + ·) (line.space env disk) next.space
  | .block _ first others next => Option.map₂ (· + ·) (Option.map₂ max first.space others.space) next.space

/-- The largest of the branches. -/
def Branches.space : Branches → Option ℕ
  | .ENDIF => some 0
  | .ELSE lines => lines.space
  | .ELSEIF _ lines others => Option.map₂ max lines.space others.space

end

/-! ### What an installation takes -/

/-- What a line can take; of a language file one variant is installed, and the others are not. -/
def PlainLine.Installs : PlainLine → ℕ → Prop
  | .EInstPkgLineFile f, n => f.space env disk = some n
  | .EInstPkgLineLanguageFile f, n => n = 0 ∨ f.space env disk = some n
  | .EInstPkgLineOption _, n => n = 0

mutual

/-- What the lines can take, with any choice of one branch, or of none, for each block. -/
def Lines.Installs : Lines → ℕ → Prop
  | .empty, n => n = 0
  | .plain line next, n => ∃ k m, line.Installs env disk k ∧ next.Installs m ∧ n = k + m
  | .block _ first others next, n => ∃ k m, (first.Installs k ∨ others.Installs k) ∧ next.Installs m ∧ n = k + m

def Branches.Installs : Branches → ℕ → Prop
  | .ENDIF, n => n = 0
  | .ELSE lines, n => n = 0 ∨ lines.Installs n
  | .ELSEIF _ lines others, n => lines.Installs n ∨ others.Installs n

end

theorem PlainLine.installs_le {line : PlainLine} {n k : ℕ} (h : line.space env disk = some n)
    (hk : line.Installs env disk k) : k ≤ n := by
  cases line with
  | EInstPkgLineFile f => exact (Option.some.inj (hk.symm.trans h)).le
  | EInstPkgLineLanguageFile f =>
    rcases hk with rfl | hk
    · exact Nat.zero_le n
    · exact (Option.some.inj (hk.symm.trans h)).le
  | EInstPkgLineOption o =>
    rw [show k = 0 from hk]
    exact Nat.zero_le n

mutual

theorem Lines.installs_le : ∀ {lines : Lines} {n k : ℕ}, lines.space env disk = some n →
    lines.Installs env disk k → k ≤ n
  | .empty, n, k, _, hk => by
    rw [Lines.Installs] at hk
    exact hk ▸ Nat.zero_le n
  | .plain line next, n, k, h, hk => by
    rw [Lines.space] at h
    obtain ⟨a, b, ha, hb, rfl⟩ := Option.mem_map₂_iff.mp h
    rw [Lines.Installs] at hk
    obtain ⟨a', b', ha', hb', rfl⟩ := hk
    exact Nat.add_le_add (PlainLine.installs_le env disk ha ha') (Lines.installs_le hb hb')
  | .block cond first others next, n, k, h, hk => by
    rw [Lines.space] at h
    obtain ⟨a, b, ha, hb, rfl⟩ := Option.mem_map₂_iff.mp h
    obtain ⟨a₁, a₂, ha₁, ha₂, rfl⟩ := Option.mem_map₂_iff.mp ha
    rw [Lines.Installs] at hk
    obtain ⟨a', b', ha', hb', rfl⟩ := hk
    refine Nat.add_le_add ?_ (Lines.installs_le hb hb')
    rcases ha' with ha' | ha'
    · exact (Lines.installs_le ha₁ ha').trans (le_max_left _ _)
    · exact (Branches.installs_le ha₂ ha').trans (le_max_right _ _)

theorem Branches.installs_le : ∀ {others : Branches} {n k : ℕ}, others.space env disk = some n →
    others.Installs env disk k → k ≤ n
  | .ENDIF, n, k, _, hk => by
    rw [Branches.Installs] at hk
    exact hk ▸ Nat.zero_le n
  | .ELSE lines, n, k, h, hk => by
    rw [Branches.space] at h
    rw [Branches.Installs] at hk
    rcases hk with rfl | hk
    · exact Nat.zero_le n
    · exact Lines.installs_le h hk
  | .ELSEIF cond lines others, n, k, h, hk => by
    rw [Branches.space] at h
    obtain ⟨a, b, ha, hb, rfl⟩ := Option.mem_map₂_iff.mp h
    rw [Branches.Installs] at hk
    rcases hk with hk | hk
    · exact (Lines.installs_le ha hk).trans (le_max_left _ _)
    · exact (Branches.installs_le hb hk).trans (le_max_right _ _)

end

end

/-! ### One line of the scan -/

section
variable {env : Env} {disk : WString → Option Bytes}

theorem openSource_returns {pszSource : WString} {bytes : Bytes} (h : disk (sisFile env pszSource) = some bytes) :
    Run.Returns (fun s => s.disk = disk) (openSource env pszSource) (sisFile env pszSource) := by
  rintro s rfl
  exact ⟨s, openSource_some env h, rfl⟩

theorem component_returns {f : PkgLineFile} {n : ℕ} (h : statedSpace env disk f.pszSource = some n) :
    Run.Returns (fun s => s.disk = disk) (do
      let file ← openSource env f.pszSource
      let bytes ← contents file
      let header ← uninitialised env 100
      let header := bytes.take 100 ++ header.drop (bytes.take 100).length
      pure (UInt32.ofNat (env.order.load ((header.drop 80).take 4)))) (UInt32.ofNat n) := by
  unfold statedSpace at h
  split at h
  · next bytes hbytes =>
    split at h
    · next hlen =>
      obtain rfl := Option.some.inj h
      refine (openSource_returns hbytes).bind (Run.Returns.bind (a := bytes) (Run.Returns.read ?_) ?_)
      · rintro s rfl
        rw [hbytes, Option.getD_some]
      · intro s hs
        refine ⟨{ s with allocated := s.allocated + 1 }, ?_, hs⟩
        rw [Run.bind_ok (show uninitialised env 100 s = (.ok _, _) from rfl), word_of_header hlen]
        rfl
    · simp at h
  · simp at h

/-- The size of a file is the space it takes. -/
theorem CalculateInstallSizeOfFileL_returns {node : PkgLineNode} {f : PkgLineFile} {n : ℕ} (hfile : node.file? = some f)
    (h : f.space env disk = some n) :
    Run.Returns (fun s => s.disk = disk) (CalculateInstallSizeOfFileL env node) (UInt32.ofNat n) := by
  unfold CalculateInstallSizeOfFileL
  rw [hfile]
  unfold PkgLineFile.space at h
  dsimp only
  split at h
  · next htype =>
    rw [htype, ← Option.some.inj h]
    exact Run.Returns.pure _
  · next htype =>
    rw [htype, ← Option.some.inj h]
    exact Run.Returns.pure _
  · next htype =>
    rw [htype, ← Option.some.inj h]
    exact Run.Returns.pure _
  · next htype =>
    rw [htype]
    exact component_returns h
  · next htype =>
    rw [htype, ← Option.some.inj h, UInt32.ofNat_toNat]
    exact Run.Returns.pure _
  · next htype =>
    rw [htype, ← Option.some.inj h, UInt32.ofNat_toNat]
    exact Run.Returns.pure _

theorem PlainLine.returns {line : PlainLine} {n : ℕ} (h : line.space env disk = some n) :
    Run.Returns (fun s => s.disk = disk) (CalculateInstallSizeOfFileL env line.node) (UInt32.ofNat n) := by
  cases line with
  | EInstPkgLineFile f => exact CalculateInstallSizeOfFileL_returns rfl h
  | EInstPkgLineLanguageFile f => exact CalculateInstallSizeOfFileL_returns rfl h
  | EInstPkgLineOption o =>
    rw [← Option.some.inj h]
    exact Run.Returns.pure _

/-! ### The scan -/

/-- A node at which a branch ends. -/
def EndsBranch : PkgLineNode → Prop
  | .EInstPkgLineCondElseIf _ => True
  | .EInstPkgLineCondElse => True
  | .EInstPkgLineCondEndIf => True
  | _ => False

theorem Branches.nodes_eq_cons (others : Branches) : ∃ node nodes, others.nodes = node :: nodes ∧ EndsBranch node := by
  cases others with
  | ENDIF => exact ⟨_, _, rfl, trivial⟩
  | ELSE lines => exact ⟨_, _, rfl, trivial⟩
  | ELSEIF cond lines others => exact ⟨_, _, rfl, trivial⟩

theorem Branches.length_nodes_pos (others : Branches) : 0 < others.nodes.length := by
  obtain ⟨node, nodes, hnodes, -⟩ := others.nodes_eq_cons
  rw [hnodes]
  exact Nat.succ_pos _

theorem intMax_ofNat {a b : ℕ} (ha : a < 2 ^ 31) (hb : b < 2 ^ 31) :
    intMax (UInt32.ofNat a) (UInt32.ofNat b) = UInt32.ofNat (max a b) := by
  have hint : ∀ {n : ℕ}, n < 2 ^ 31 → (UInt32.ofNat n).toInt32.toInt = n := by
    intro n hn
    rw [UInt32.toInt32_ofNat', Int32.toInt_ofNat_of_lt hn]
  unfold intMax
  simp only [Int32.lt_iff_toInt_lt, hint ha, hint hb, Int.ofNat_lt]
  split
  · next h => rw [max_eq_right h.le]
  · next h => rw [max_eq_left (not_lt.mp h)]

/-- What `ifBlockSize` does behind a branch. -/
def afterBranch (env : Env) (fuel : ℕ) (spaceNeeded : UInt32) (nodes : List PkgLineNode) :
    Gen (UInt32 × List PkgLineNode) :=
  match nodes with
  | [] => Run.stop .undefined
  | .EInstPkgLineCondEndIf :: nodes => pure (spaceNeeded, nodes)
  | _ :: nodes => ifBlockSize env fuel spaceNeeded nodes

theorem ifBlockSize_succ (fuel : ℕ) (spaceNeeded : UInt32) (nodes : List PkgLineNode) :
    ifBlockSize env (fuel + 1) spaceNeeded nodes = (do
      let rest ← branchSize env fuel 0 nodes
      afterBranch env fuel (intMax spaceNeeded rest.1) rest.2) := by
  rw [ifBlockSize]
  rfl

theorem branchSize_plain (fuel : ℕ) (needsOfBlock : UInt32) (line : PlainLine) (nodes : List PkgLineNode) :
    branchSize env (fuel + 1) needsOfBlock (line.node :: nodes) = (do
      let size ← CalculateInstallSizeOfFileL env line.node
      branchSize env fuel (needsOfBlock + size) nodes) := by
  rw [branchSize.eq_def]
  cases line with
  | EInstPkgLineFile f => rfl
  | EInstPkgLineLanguageFile f => rfl
  | EInstPkgLineOption o => rfl

theorem branchSize_if (fuel : ℕ) (needsOfBlock : UInt32) (cond : PkgLineCondition) (nodes : List PkgLineNode) :
    branchSize env (fuel + 1) needsOfBlock (.EInstPkgLineCondIf cond :: nodes) = (do
      let block ← ifBlockSize env fuel 0 nodes
      branchSize env fuel (needsOfBlock + block.1) block.2) := by
  rw [branchSize.eq_def]

theorem branchSize_end {node : PkgLineNode} (h : EndsBranch node) (fuel : ℕ) (needsOfBlock : UInt32)
    (nodes : List PkgLineNode) :
    branchSize env (fuel + 1) needsOfBlock (node :: nodes) = pure (needsOfBlock, node :: nodes) := by
  rw [branchSize.eq_def]
  unfold EndsBranch at h
  split at h
  · rfl
  · rfl
  · rfl
  · exact h.elim

theorem ifBlockSize_returns {fuel a n m : ℕ} {lines : Lines} {others : Branches} (ha : a < 2 ^ 31) (hn : n < 2 ^ 31)
    (hlines : ∀ {node : PkgLineNode} {rest : List PkgLineNode}, EndsBranch node →
      Run.Returns (fun s => s.disk = disk) (branchSize env fuel (UInt32.ofNat 0) (lines.nodes ++ node :: rest))
        (UInt32.ofNat (0 + n), node :: rest))
    (hothers : ∀ {b : ℕ} {rest : List PkgLineNode}, b < 2 ^ 31 →
      Run.Returns (fun s => s.disk = disk) (afterBranch env fuel (UInt32.ofNat b) (others.nodes ++ rest))
        (UInt32.ofNat (max b m), rest)) (rest : List PkgLineNode) :
    Run.Returns (fun s => s.disk = disk)
      (ifBlockSize env (fuel + 1) (UInt32.ofNat a) (lines.nodes ++ (others.nodes ++ rest)))
      (UInt32.ofNat (max a (max n m)), rest) := by
  obtain ⟨node, nodes, hnodes, hnode⟩ := others.nodes_eq_cons
  have hlines := @hlines node (nodes ++ rest) hnode
  rw [Nat.zero_add, ← List.cons_append, ← hnodes] at hlines
  rw [ifBlockSize_succ, ← max_assoc]
  refine hlines.bind ?_
  dsimp only
  rw [intMax_ofNat ha hn]
  exact hothers (max_lt ha hn)

mutual

/-- The scan of a branch gives its space and stops in front of its end. -/
theorem branchSize_returns : ∀ (lines : Lines) {n a fuel : ℕ} {node : PkgLineNode} {rest : List PkgLineNode},
    lines.space env disk = some n → n < 2 ^ 31 → 2 * lines.nodes.length < fuel → EndsBranch node →
    Run.Returns (fun s => s.disk = disk) (branchSize env fuel (UInt32.ofNat a) (lines.nodes ++ node :: rest))
      (UInt32.ofNat (a + n), node :: rest)
  | .empty, n, a, fuel, node, rest, h, _, hfuel, hnode => by
    obtain ⟨fuel, rfl⟩ : ∃ f, fuel = f + 1 := ⟨fuel - 1, by omega⟩
    rw [Lines.space] at h
    rw [← Option.some.inj h, Lines.nodes, List.nil_append, branchSize_end hnode]
    exact Run.Returns.pure _
  | .plain line next, n, a, fuel, node, rest, h, hn, hfuel, hnode => by
    rw [Lines.nodes, List.length_cons] at hfuel
    obtain ⟨fuel, rfl⟩ : ∃ f, fuel = f + 1 := ⟨fuel - 1, by omega⟩
    rw [Lines.space] at h
    obtain ⟨k, m, hk, hm, rfl⟩ := Option.mem_map₂_iff.mp h
    rw [Lines.nodes, List.cons_append, branchSize_plain, ← Nat.add_assoc]
    refine (PlainLine.returns hk).bind ?_
    rw [← UInt32.ofNat_add]
    exact branchSize_returns next hm (by omega) (by omega) hnode
  | .block cond first others next, n, a, fuel, node, rest, h, hn, hfuel, hnode => by
    rw [Lines.nodes, List.length_cons, List.length_append, List.length_append] at hfuel
    have hpos := others.length_nodes_pos
    obtain ⟨fuel, rfl⟩ : ∃ f, fuel = f + 2 := ⟨fuel - 2, by omega⟩
    rw [Lines.space] at h
    obtain ⟨k, l, hk, hl, rfl⟩ := Option.mem_map₂_iff.mp h
    obtain ⟨k₁, k₂, hk₁, hk₂, rfl⟩ := Option.mem_map₂_iff.mp hk
    have hblock := ifBlockSize_returns (a := 0) (by omega) (by omega)
      (branchSize_returns first hk₁ (by omega) (show 2 * first.nodes.length < fuel by omega))
      (afterBranch_returns others hk₂ (by omega) (by omega)) (next.nodes ++ node :: rest)
    rw [Nat.zero_max] at hblock
    rw [Lines.nodes, List.cons_append, List.append_assoc, List.append_assoc, branchSize_if, ← Nat.add_assoc]
    refine hblock.bind ?_
    dsimp only
    rw [← UInt32.ofNat_add]
    exact branchSize_returns next hl (by omega) (by omega) hnode

/-- The rest of an `IF` block gives the largest space of its branches. -/
theorem afterBranch_returns : ∀ (others : Branches) {n a fuel : ℕ} {rest : List PkgLineNode},
    others.space env disk = some n → n < 2 ^ 31 → 2 * others.nodes.length ≤ fuel + 2 → a < 2 ^ 31 →
    Run.Returns (fun s => s.disk = disk) (afterBranch env fuel (UInt32.ofNat a) (others.nodes ++ rest))
      (UInt32.ofNat (max a n), rest)
  | .ENDIF, n, a, fuel, rest, h, _, _, _ => by
    rw [Branches.space] at h
    rw [← Option.some.inj h, Nat.max_zero]
    exact Run.Returns.pure _
  | .ELSE lines, n, a, fuel, rest, h, hn, hfuel, ha => by
    rw [Branches.nodes, List.length_cons, List.length_append, List.length_singleton] at hfuel
    obtain ⟨fuel, rfl⟩ : ∃ f, fuel = f + 1 := ⟨fuel - 1, by omega⟩
    rw [Branches.space] at h
    have hblock := @ifBlockSize_returns env disk fuel a n 0 lines .ENDIF ha hn
      (branchSize_returns lines h hn (show 2 * lines.nodes.length < fuel by omega))
      (fun {b rest} _ => by
        rw [Nat.max_zero]
        exact Run.Returns.pure _) rest
    rw [Nat.max_zero] at hblock
    rw [Branches.nodes, List.cons_append, List.append_assoc]
    exact hblock
  | .ELSEIF cond lines others, n, a, fuel, rest, h, hn, hfuel, ha => by
    rw [Branches.nodes, List.length_cons, List.length_append] at hfuel
    have hpos := others.length_nodes_pos
    obtain ⟨fuel, rfl⟩ : ∃ f, fuel = f + 1 := ⟨fuel - 1, by omega⟩
    rw [Branches.space] at h
    obtain ⟨k₁, k₂, hk₁, hk₂, rfl⟩ := Option.mem_map₂_iff.mp h
    rw [Branches.nodes, List.cons_append, List.append_assoc]
    exact ifBlockSize_returns ha (by omega) (branchSize_returns lines hk₁ (by omega) (by omega))
      (afterBranch_returns others hk₂ (by omega) (by omega)) rest

end

theorem estimateLoop_plain (fuel : ℕ) (m_dwMaximumSpaceNeeded : UInt32) (line : PlainLine) (nodes : List PkgLineNode) :
    estimateLoop env (fuel + 1) m_dwMaximumSpaceNeeded (line.node :: nodes) = (do
      let size ← CalculateInstallSizeOfFileL env line.node
      estimateLoop env fuel (m_dwMaximumSpaceNeeded + size) nodes) := by
  rw [estimateLoop.eq_def]
  cases line with
  | EInstPkgLineFile f => rfl
  | EInstPkgLineLanguageFile f => rfl
  | EInstPkgLineOption o => rfl

theorem estimateLoop_if (fuel : ℕ) (m_dwMaximumSpaceNeeded : UInt32) (cond : PkgLineCondition)
    (nodes : List PkgLineNode) :
    estimateLoop env (fuel + 1) m_dwMaximumSpaceNeeded (.EInstPkgLineCondIf cond :: nodes) = (do
      let block ← ifBlockSize env (2 * nodes.length + 2) 0 nodes
      estimateLoop env fuel (m_dwMaximumSpaceNeeded + block.1) block.2) := by
  rw [estimateLoop.eq_def]

/-- The scan of a nesting gives its space. -/
theorem estimateLoop_returns : ∀ (lines : Lines) {n a fuel : ℕ}, lines.space env disk = some n → n < 2 ^ 31 →
    lines.nodes.length ≤ fuel →
    Run.Returns (fun s => s.disk = disk) (estimateLoop env fuel (UInt32.ofNat a) lines.nodes) (UInt32.ofNat (a + n))
  | .empty, n, a, fuel, h, _, _ => by
    rw [Lines.space] at h
    rw [← Option.some.inj h, Lines.nodes, estimateLoop]
    exact Run.Returns.pure _
  | .plain line next, n, a, fuel, h, hn, hfuel => by
    rw [Lines.nodes, List.length_cons] at hfuel
    obtain ⟨fuel, rfl⟩ : ∃ f, fuel = f + 1 := ⟨fuel - 1, by omega⟩
    rw [Lines.space] at h
    obtain ⟨k, m, hk, hm, rfl⟩ := Option.mem_map₂_iff.mp h
    rw [Lines.nodes, estimateLoop_plain, ← Nat.add_assoc]
    refine (PlainLine.returns hk).bind ?_
    rw [← UInt32.ofNat_add]
    exact estimateLoop_returns next hm (by omega) (by omega)
  | .block cond first others next, n, a, fuel, h, hn, hfuel => by
    rw [Lines.nodes, List.length_cons, List.length_append, List.length_append] at hfuel
    obtain ⟨fuel, rfl⟩ : ∃ f, fuel = f + 1 := ⟨fuel - 1, by omega⟩
    rw [Lines.space] at h
    obtain ⟨k, l, hk, hl, rfl⟩ := Option.mem_map₂_iff.mp h
    obtain ⟨k₁, k₂, hk₁, hk₂, rfl⟩ := Option.mem_map₂_iff.mp hk
    have hlen : (first.nodes ++ (others.nodes ++ next.nodes)).length =
        first.nodes.length + (others.nodes.length + next.nodes.length) := by
      rw [List.length_append, List.length_append]
    have hpos := others.length_nodes_pos
    rw [Lines.nodes, estimateLoop_if, ← Nat.add_assoc]
    generalize (first.nodes ++ (others.nodes ++ next.nodes)).length = len at hlen
    have hblock := ifBlockSize_returns (a := 0) (by omega) (by omega)
      (branchSize_returns first hk₁ (by omega) (show 2 * first.nodes.length < 2 * len + 1 by omega))
      (afterBranch_returns others hk₂ (by omega) (by omega)) next.nodes
    rw [Nat.zero_max] at hblock
    refine hblock.bind ?_
    dsimp only
    rw [← UInt32.ofNat_add]
    exact estimateLoop_returns next hl (by omega) (by omega)

end

/-- The accepted lines are those of a nesting.  Whatever nesting they are the lines of, the scan ends, without a node
outside the array, with the space of the nesting, and no choice of branches takes more. -/
theorem EstimateInstallationSizeL_space {m_stubFile : Bool} {fuel : ℕ} {ts : List Statement}
    {pkgLines : List PkgLineNode} (h : ParseL m_stubFile fuel ts [] = .ok pkgLines) :
    (∃ lines : Lines, lines.nodes = pkgLines.reverse) ∧
    ∀ lines : Lines, lines.nodes = pkgLines.reverse →
      ∀ (env : Env) (w : SISWriter) (s : State) (n : ℕ), w.pkgLines = pkgLines →
        lines.space env s.disk = some n → n < 2 ^ 31 →
        (EstimateInstallationSizeL env w s).1 = .ok (UInt32.ofNat n) ∧
        (EstimateInstallationSizeL env w s).2.disk = s.disk ∧
        ∀ k, lines.Installs env s.disk k → k ≤ n := by
  constructor
  · obtain ⟨lines, rfl⟩ := parseL_builds h
    refine ⟨lines, ?_⟩
    rw [List.append_nil, List.reverse_reverse]
  · rintro lines hlines env w s n rfl hspace hn
    obtain ⟨s', hrun, hs'⟩ := estimateLoop_returns lines (a := 0) hspace hn le_rfl s rfl
    rw [hlines, List.length_reverse, Nat.zero_add] at hrun
    have hrun : EstimateInstallationSizeL env w s = (.ok (UInt32.ofNat n), s') := hrun
    rw [hrun]
    exact ⟨rfl, hs', fun k hk => Lines.installs_le env s.disk hspace hk⟩

/-- Three bytes, and a block whose second branch, with an empty block in it, needs five. -/
def sampleLines : Lines :=
  .plain (.EInstPkgLineFile ⟨.EInstFileTypeSimple, 0, [97], [], [], 3, 0⟩)
    (.block (.EInstCondPrimTypeNumber 1)
      (.plain (.EInstPkgLineFile ⟨.EInstFileTypeText, 0, [98], [], [], 9, 0⟩) .empty)
      (.ELSEIF (.EInstCondPrimTypeNumber 0)
        (.block (.EInstCondPrimTypeNumber 2) .empty .ENDIF
          (.plain (.EInstPkgLineLanguageFile ⟨.EInstFileTypeRun, 0, [99], [], [], 5, 0⟩) .empty))
        .ENDIF)
      .empty)

def sampleStatements : List Statement :=
  [.header, .file ⟨.EInstFileTypeSimple, 0, [97], [], [], 3, 0⟩, .IF (.EInstCondPrimTypeNumber 1),
    .file ⟨.EInstFileTypeText, 0, [98], [], [], 9, 0⟩, .ELSEIF (.EInstCondPrimTypeNumber 0),
    .IF (.EInstCondPrimTypeNumber 2), .ENDIF, .languageBlock [⟨.EInstFileTypeRun, 0, [99], [], [], 5, 0⟩], .ENDIF]

theorem EstimateInstallationSizeL_space_sample :
    (EstimateInstallationSizeL (sampleEnv .little) { samplePackage with pkgLines := sampleLines.nodes.reverse }
      sampleState).1 = .ok 8 :=
  ((EstimateInstallationSizeL_space
    (show ParseL false 9 sampleStatements [] = .ok sampleLines.nodes.reverse from rfl)).2
    sampleLines (by rw [List.reverse_reverse]) _ _ _ 8 rfl rfl (by decide)).1

end GnuPoc.Crtsis
