import GnuPoc.Pkg.ConditionTree
import GnuPoc.Sis.Generate

/-!
# GnuPoc.Sis.Expression — from the nodes of a condition to a `SISExpression` (`sisfilegen.cpp`)

In memory a `PKGLINECONDITION` is its `exprType` with a union of one or two pointers, and `GetExpression`
follows the pointers its own enumeration of the `exprType`s asks for.  For the nodes of a condition tree they
are all there (`getExpression_layout`), and the expression still means the tree (`readExpression_cond`).
-/

namespace GnuPoc.Sis

open GnuPoc.Lib GnuPoc.Pkg

/-! ### `GetExpression` on nodes -/

/-- The operators of `SISExpression`. -/
def EBinOpEqual : UInt32 := 1
def EBinOpNotEqual : UInt32 := 2
def EBinOpGreaterThan : UInt32 := 3
def EBinOpLessThan : UInt32 := 4
def EBinOpGreaterOrEqual : UInt32 := 5
def EBinOpLessOrEqual : UInt32 := 6
def ELogOpAnd : UInt32 := 7
def ELogOpOr : UInt32 := 8
def EUnaryOpNot : UInt32 := 9
def EFuncExists : UInt32 := 10
def EFuncAppProperties : UInt32 := 11
def EFuncDevProperties : UInt32 := 12
def EPrimTypeString : UInt32 := 13
def EPrimTypeOption : UInt32 := 14
def EPrimTypeVariable : UInt32 := 15
def EPrimTypeNumber : UInt32 := 16

/-- `union VARIANTVAL` with the member that was written. -/
inductive VARIANTVAL
  | dwNumber (n : UInt32)
  | pszString (s : WStr)

mutual
/-- A node: `pLhs`, `pExpr`, `pArg[0]` and `pPrim` are its first pointer, `pRhs` and `pArg[1]` its second. -/
inductive ConditionNode
  | mk (exprType : UInt32) (first second : NodePointer)
inductive NodePointer
  | null
  | condition (c : ConditionNode)
  | prim (p : VARIANTVAL)
end

/-- A pointer that is `NULL`, or that points to something else than what is read there. -/
inductive NodeFault
  | nullPointer
  | otherOperand
  deriving DecidableEq, Repr

/-- `->pszString` -/
def NodePointer.pszString : NodePointer → Except NodeFault WStr
  | null => .error .nullPointer
  | prim (.pszString s) => .ok s
  | _ => .error .otherOperand

/-- `->dwNumber` -/
def NodePointer.dwNumber : NodePointer → Except NodeFault UInt32
  | null => .error .nullPointer
  | prim (.dwNumber n) => .ok n
  | _ => .error .otherOperand

/-- `->pPrim` -/
def NodePointer.pPrim : NodePointer → Except NodeFault NodePointer
  | null => .error .nullPointer
  | condition (.mk _ first _) => .ok first
  | _ => .error .otherOperand

/-- `new SISExpression(...)`; a `NULL` element is left out. -/
def newSISExpression (aOperator aIntValue : UInt32) (aString aLeft aRight : Option SISField) : SISField :=
  .compound (.SISExpression aOperator aIntValue) (aString.toList ++ aLeft.toList ++ aRight.toList)

mutual
/-- `GetExpression`; `none` is `NULL`. -/
def ConditionNode.getExpression : ConditionNode → Except NodeFault (Option SISField)
  | .mk exprType first second =>
    if exprType = EFuncExists then do
      let prim ← first.pPrim
      let str ← prim.pszString
      .ok (some (newSISExpression exprType 0 (some (.leaf (.SISString str))) none none))
    else if exprType ∈ [EBinOpEqual, EBinOpNotEqual, EBinOpGreaterThan, EBinOpLessThan,
        EBinOpGreaterOrEqual, EBinOpLessOrEqual, ELogOpAnd, ELogOpOr, EFuncAppProperties] then do
      let left ← first.getExpression
      let right ← second.getExpression
      .ok (some (newSISExpression exprType 0 none left right))
    else if exprType ∈ [EUnaryOpNot, EFuncDevProperties] then do
      let expr ← first.getExpression
      .ok (some (newSISExpression exprType 0 none expr none))
    else if exprType = EPrimTypeString then do
      let str ← first.pszString
      .ok (some (newSISExpression exprType 0 (some (.leaf (.SISString str))) none none))
    else if exprType ∈ [EPrimTypeVariable, EPrimTypeNumber, EPrimTypeOption] then do
      let n ← first.dwNumber
      .ok (some (newSISExpression exprType n none none none))
    else .ok none
/-- `GetExpression` on the node behind a pointer. -/
def NodePointer.getExpression : NodePointer → Except NodeFault (Option SISField)
  | .null => .error .nullPointer
  | .condition c => c.getExpression
  | .prim _ => .error .otherOperand
end

/-- The nodes the parser allocates for a condition. -/
def layout : PKGLINECONDITION → ConditionNode
  | .binary op pLhs pRhs => .mk op.exprType (.condition (layout pLhs)) (.condition (layout pRhs))
  | .unary op pExpr => .mk op.exprType (.condition (layout pExpr)) .null
  | .string s => .mk 13 (.prim (.pszString s)) .null
  | .number prim dwNumber => .mk prim.exprType (.prim (.dwNumber dwNumber)) .null

theorem getExpression_binary (op : BinaryOp) {l r : PKGLINECONDITION}
    (hl : (layout l).getExpression = .ok (some (GetExpression l)))
    (hr : (layout r).getExpression = .ok (some (GetExpression r))) :
    (layout (.binary op l r)).getExpression = .ok (some (GetExpression (.binary op l r))) := by
  have hexists : op.exprType ≠ EFuncExists := by
    cases op <;> decide
  have hbinary : op.exprType ∈ [EBinOpEqual, EBinOpNotEqual, EBinOpGreaterThan, EBinOpLessThan,
      EBinOpGreaterOrEqual, EBinOpLessOrEqual, ELogOpAnd, ELogOpOr, EFuncAppProperties] := by
    cases op <;> decide
  rw [layout, ConditionNode.getExpression, if_neg hexists, if_pos hbinary, NodePointer.getExpression,
    NodePointer.getExpression, hl, hr, GetExpression]
  rfl

theorem getExpression_unary (op : UnaryOp) {e : PKGLINECONDITION} (hop : op ≠ .EInstCondFuncExists)
    (he : (layout e).getExpression = .ok (some (GetExpression e))) :
    (layout (.unary op e)).getExpression = .ok (some (GetExpression (.unary op e))) := by
  cases op with
  | EInstCondFuncExists => exact absurd rfl hop
  | EInstCondUnaryOpNot | EInstCondFuncDevProperties =>
    rw [layout, ConditionNode.getExpression, if_neg (by decide), if_neg (by decide), if_pos (by decide),
      NodePointer.getExpression, he, GetExpression]
    · rfl
    · simp

theorem getExpression_number (prim : NumberPrim) (n : UInt32) :
    (layout (.number prim n)).getExpression = .ok (some (GetExpression (.number prim n))) := by
  cases prim <;> rfl

theorem getExpression_layout (c : Condition) :
    (layout c.cond).getExpression = .ok (some (GetExpression c.cond)) := by
  induction c with
  | «variable» v => exact getExpression_number _ _
  | option n => exact getExpression_number _ _
  | number n => exact getExpression_number _ _
  | string s => rfl
  | «exists» s => rfl
  | appProp key value =>
    exact getExpression_binary _ (getExpression_number _ _) (getExpression_number _ _)
  | devProp key => exact getExpression_unary _ (by simp) (getExpression_number _ _)
  | not c ih => exact getExpression_unary _ (by simp) ih
  | compare op left right ihl ihr => exact getExpression_binary _ ihl ihr
  | logical op left right ihl ihr => exact getExpression_binary _ ihl ihr

/-! ### What an expression means -/

/-- A variable by its number. -/
def findVariable (n : UInt32) : Option Variable :=
  (List.finRange KVariableLookupTable.length).find? fun v => v.number == n

def readValue (op n : UInt32) : Option Condition :=
  if op = EPrimTypeVariable then (findVariable n).map .variable
  else if op = EPrimTypeOption then some (.option n)
  else if op = EPrimTypeNumber then some (.number n)
  else none

def readString (op : UInt32) (s : WStr) : Option Condition :=
  if op = EPrimTypeString then some (.string s)
  else if op = EFuncExists then some (.exists s)
  else none

/-- The number an argument of a function is. -/
def argument : Condition → Option UInt32
  | .number n => some n
  | _ => none

def readUnary (op : UInt32) (c : Condition) : Option Condition :=
  if op = EUnaryOpNot then some (.not c)
  else if op = EFuncDevProperties then (argument c).map .devProp
  else none

def readBinary (op : UInt32) (left right : Condition) : Option Condition :=
  if op = EBinOpEqual then some (.compare .equal left right)
  else if op = EBinOpNotEqual then some (.compare .notEqual left right)
  else if op = EBinOpGreaterThan then some (.compare .greater left right)
  else if op = EBinOpLessThan then some (.compare .less left right)
  else if op = EBinOpGreaterOrEqual then some (.compare .greaterOrEqual left right)
  else if op = EBinOpLessOrEqual then some (.compare .lessOrEqual left right)
  else if op = ELogOpAnd then some (.logical .and left right)
  else if op = ELogOpOr then some (.logical .or left right)
  else if op = EFuncAppProperties then
    (argument left).bind fun key => (argument right).map fun value => .appProp key value
  else none

/-- The condition that a `SISExpression` means. -/
def readExpression : SISField → Option Condition
  | .compound (.SISExpression op n) [] => readValue op n
  | .compound (.SISExpression op _) [.leaf (.SISString s)] => readString op s
  | .compound (.SISExpression op _) [e] => (readExpression e).bind (readUnary op)
  | .compound (.SISExpression op _) [l, r] =>
    (readExpression l).bind fun left => (readExpression r).bind fun right => readBinary op left right
  | _ => none

theorem findVariable_number : ∀ v : Variable, findVariable v.number = some v := by
  decide +kernel

theorem getExpression_compound (p : PKGLINECONDITION) :
    ∃ op n elements, GetExpression p = .compound (.SISExpression op n) elements := by
  rcases p with ⟨op, l, r⟩ | ⟨op, e⟩ | s | ⟨prim, n⟩
  · exact ⟨_, _, _, rfl⟩
  · cases op <;> exact ⟨_, _, _, rfl⟩
  · exact ⟨_, _, _, rfl⟩
  · exact ⟨_, _, _, rfl⟩

theorem readExpression_operand (op n : UInt32) (p : PKGLINECONDITION) :
    readExpression (.compound (.SISExpression op n) [GetExpression p]) =
      (readExpression (GetExpression p)).bind (readUnary op) := by
  obtain ⟨op', n', elements, hp⟩ := getExpression_compound p
  rw [hp, readExpression]
  rintro s ⟨⟩

theorem readExpression_operands (op n : UInt32) (l r : SISField) :
    readExpression (.compound (.SISExpression op n) [l, r]) =
      (readExpression l).bind fun left => (readExpression r).bind fun right => readBinary op left right := by
  rw [readExpression]

/-- A condition is read back from its expression. -/
theorem readExpression_cond (c : Condition) : readExpression (GetExpression c.cond) = some c := by
  induction c with
  | «variable» v =>
    show (findVariable v.number).map Condition.variable = _
    rw [findVariable_number]
    rfl
  | option n => rfl
  | number n => rfl
  | string s => rfl
  | «exists» s => rfl
  | appProp key value =>
    rw [Condition.cond, GetExpression, readExpression_operands]
    rfl
  | devProp key =>
    rw [Condition.cond, GetExpression, readExpression_operand]
    · rfl
    · simp
  | not c ih =>
    rw [Condition.cond, GetExpression, readExpression_operand, ih]
    · rfl
    · simp
  | compare op left right ihl ihr =>
    rw [Condition.cond, GetExpression, readExpression_operands, ihl, ihr]
    cases op <;> rfl
  | logical op left right ihl ihr =>
    rw [Condition.cond, GetExpression, readExpression_operands, ihl, ihr]
    cases op <;> rfl

/-! ### Conditions from text to expression -/

/-- The text of a condition is parsed to its tree, a chain to the tree in which comparisons bind tighter than
`AND` and `OR`, and `GetExpression` keeps the tree. -/
theorem conditions_kept :
    (∀ c, ∃ ts, Text c ts) ∧
    (∀ c ts rest, Text c ts → relationOp (current rest) = none → logicalOp (current rest) = none →
      ParseExpr (ts ++ rest) = .ok (c.cond, rest)) ∧
    (∀ (x : Operand) (links : Links) (rest : List Token), relationOp (current rest) = none →
      logicalOp (current rest) = none →
      ParseExpr (x.tokens ++ (linkTokens links ++ rest)) =
        .ok ((group x.tree links).1.cond, linkTokens (group x.tree links).2 ++ rest)) ∧
    (∀ x links, (group x links).2 = [] ↔ Separated links) ∧
    ∀ c : Condition, (layout c.cond).getExpression = .ok (some (GetExpression c.cond)) ∧
      readExpression (GetExpression c.cond) = some c := by
  refine ⟨exists_text, fun c ts rest h hrel hlog => parseExpr_text h hrel hlog,
    fun x links rest hrel hlog => parseExpr_chain x links hrel hlog, group_separated, fun c => ?_⟩
  exact ⟨getExpression_layout c, readExpression_cond c⟩

/-- `(1 = NOT 2)` before the end of the text, and `1 = 2 AND 3`. -/
theorem conditions_kept_numbers :
    ParseExpr [.char '(', .NUMERIC_TOKEN 1, .char '=', .NOT_TOKEN, .NUMERIC_TOKEN 2, .char ')'] =
      .ok ((Condition.compare .equal (.number 1) (.not (.number 2))).cond, []) ∧
    ParseExpr [.NUMERIC_TOKEN 1, .char '=', .NUMERIC_TOKEN 2, .AND_TOKEN, .NUMERIC_TOKEN 3] =
      .ok ((Condition.logical .and (.compare .equal (.number 1) (.number 2)) (.number 3)).cond, []) := by
  obtain ⟨_, htext, hchain, _, _⟩ := conditions_kept
  refine ⟨?_, ?_⟩
  · exact htext _ _ [] (.compare .equal (.number 1) (.not (.number 2))) rfl rfl
  · exact hchain (.ofNumber 1) [(.compare .equal, .ofNumber 2), (.logical .and, .ofNumber 3)] [] rfl rfl

/-- `1 = 2 AND 3` is not `1 = (2 AND 3)`. -/
theorem comparison_binds_tighter : ¬ ∀ (x : Operand) (links : Links),
    ParseExpr (x.tokens ++ linkTokens links) = .ok ((rightNested x.tree links).cond, []) := by
  intro h
  have hnested := h (.ofNumber 1) [(.compare .equal, .ofNumber 2), (.logical .and, .ofNumber 3)]
  have hnone : relationOp (current []) = none ∧ logicalOp (current []) = none := ⟨rfl, rfl⟩
  have hparse := parseExpr_chain (.ofNumber 1)
    [(.compare .equal, .ofNumber 2), (.logical .and, .ofNumber 3)] hnone.1 hnone.2
  rw [List.append_nil, hnested] at hparse
  exact absurd hparse (by decide)

end GnuPoc.Sis
