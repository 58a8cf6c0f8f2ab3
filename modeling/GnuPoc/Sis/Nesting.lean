import GnuPoc.Pkg.Source
import GnuPoc.Sis.Tree

/-!
# GnuPoc.Sis.Nesting — from the text of a package file to the tree of its install blocks

The parser stores the body of a package file as a flat list of nodes and the generator builds the tree
from it; together they keep the nesting that the file spells.
-/

namespace GnuPoc.Sis

open GnuPoc.Lib GnuPoc.Pkg GnuPoc.Pkg.Source

section
variable {env : ParseEnv} {n : ℕ}

theorem line_forLanguages (l : SrcLine) (h : l.WellFormed env n) : (l.line env).ForLanguages n := by
  rcases l with _ | _ | _ | ⟨sources, dest, type⟩ | ⟨sources, uid⟩
  · trivial
  · trivial
  · trivial
  · exact (List.length_map _).trans h.1
  · exact (List.length_map _).trans h.1

mutual
theorem blockLines_forLanguages : ∀ b : Block SrcLine Expr, b.All (SrcLine.WellFormed env n) →
    (blockLines env b).All (Line.ForLanguages n)
  | .nil, _ => trivial
  | .cons item rest, h => ⟨itemLines_forLanguages item h.1, blockLines_forLanguages rest h.2⟩
theorem itemLines_forLanguages : ∀ item : Item SrcLine Expr, item.All (SrcLine.WellFormed env n) →
    (itemLines env item).All (Line.ForLanguages n)
  | .line l, h => line_forLanguages l h
  | .ifBlock _ body tail, h => ⟨blockLines_forLanguages body h.1, tailLines_forLanguages tail h.2⟩
theorem tailLines_forLanguages : ∀ tail : Tail SrcLine Expr, tail.All (SrcLine.WellFormed env n) →
    (tailLines env tail).All (Line.ForLanguages n)
  | .endIf, _ => trivial
  | .elseIf _ body tail, h => ⟨blockLines_forLanguages body h.1, tailLines_forLanguages tail h.2⟩
  | .els body, h => blockLines_forLanguages body h
end

end

/-- **From the text to the tree.** Behind the header of a package file, the parser takes every
well-formed body; on the nodes it stores, the loop of `GenerateSISFile` ends with the install block the
body spells, or stops where the body does. -/
theorem ParseL_genLoop (penv : ParseEnv) (env : Env) (fIsStub stub : Bool) (b : Block SrcLine Expr)
    {w : CSISWriter} (hw : HeaderDone w) (hempty : w.m_pPkgLineBase = [])
    (hb : b.All (SrcLine.WellFormed penv w.m_wNumLangs.toNat)) (index : UInt32)
    (fileDataArray : List SISField) :
    ∃ w', ParseL penv fIsStub ((blockTokens b).length + 2) w false (blockTokens b) = .ok w' ∧
      (genLoop (genContext env w' stub) w'.m_pPkgLineBase.length w'.m_pPkgLineBase.reverse
          (genStart index fileDataArray)).map (fun s => (s.topBlock, s.supplies)) =
        (blockBuild (genContext env w stub) (blockLines penv b) ⟨index, fileDataArray, [], []⟩).map
          fun x => (x.1.field, x.2) := by
  have hlen : (languageCodes w).length = w.m_wNumLangs.toNat := by
    rw [languageCodes, List.length_map, List.length_reverse, hw.counted]
  have hne : languageCodes w ≠ [] := by
    intro h
    rw [h] at hlen
    exact hw.numLangs_ne_zero hlen.symm
  have hall : (blockLines penv b).All (Line.ForLanguages (languageCodes w).length) := by
    rw [hlen]
    exact blockLines_forLanguages b hb
  refine ⟨_, ParseL_tokens fIsStub b hw hb _, ?_⟩
  rw [CSISWriter.addLines, hempty, List.append_nil, List.length_reverse, List.reverse_reverse]
  exact @genLoop_nodes (genContext env w stub) hne (blockLines penv b) hall index fileDataArray

/-! `IF 1` with a file, `ELSE` with a file for the one language. -/

def plainEnv : Env where
  readFile _ := some [0x41]
  zlib := storedZlib
  sha1 b := b
  capabilities _ := none
  length_capabilities := nofun
  selfsigned := ⟨false, none, fun _ => none⟩
  date := (2004, 0, 1)
  time := (0, 0, 0)

def plainBody : Block SrcLine Expr :=
  .cons (.ifBlock (.relation (.unary (.factor (.number 1))))
    (.cons (.line (.file [0x61] [0x62] none)) .nil)
    (.els (.cons (.line (.languageFiles [[0x63]] [0x64] none)) .nil))) .nil

def plainHeader : CSISWriter :=
  { CSISWriter.empty with m_pLangStringBase := [[0x41]], m_pLangBase := [1], m_wNumLangs := 1 }

theorem ParseL_genLoop_plain :
    ∃ w', ParseL ⟨some, fun _ => none⟩ false ((blockTokens plainBody).length + 2) plainHeader false
        (blockTokens plainBody) = .ok w' ∧
      (genLoop (genContext plainEnv w' false) w'.m_pPkgLineBase.length w'.m_pPkgLineBase.reverse
          (genStart 0 [])).map (fun s => (s.topBlock, s.supplies)) =
        (blockBuild (genContext plainEnv plainHeader false) (blockLines ⟨some, fun _ => none⟩ plainBody)
          ⟨0, [], [], []⟩).map fun x => (x.1.field, x.2) := by
  refine ParseL_genLoop ⟨some, fun _ => none⟩ plainEnv false false plainBody ⟨rfl, ?_, rfl⟩ rfl ?_ 0 []
  · exact List.cons_ne_nil _ _
  · refine ⟨⟨⟨⟨fun _ => rfl, by decide⟩, trivial⟩, ⟨rfl, fun s _ => rfl, by decide⟩, trivial⟩, trivial⟩

end GnuPoc.Sis
