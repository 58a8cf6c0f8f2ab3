import GnuPoc.Pkg.Parse

/-!
# GnuPoc.Pkg.Condition — the conditions of a package file and their parser

The grammar that `ParseLogicalOp`, `ParseRelation`, `ParseUnary` and `ParseFactor` accept, the tokens of a
condition and the expression it stands for.
-/

namespace GnuPoc.Pkg

/-- An operator token of the table `f`. -/
structure Operator (f : Token → Option BinaryOp) where
  token : Token
  op : BinaryOp
  spells : f token = some op

/-- A name that `ParseFactor` knows. -/
structure VariableName where
  pszString : WStr
  prim : NumberPrim
  dwNumber : UInt32
  known : lookupVariable pszString = .ok (prim, dwNumber)

namespace Source

mutual
/-- `AND` and `OR` group to the right. -/
inductive Expr
  | relation (r : Relation)
  | logical (left : Relation) (op : Operator logicalOp) (right : Expr)
inductive Relation
  | unary (u : Unary)
  | compare (left : Unary) (op : Operator relationOp) (right : Unary)
inductive Unary
  | not (u : Unary)
  | appProp (key value : UInt64)
  | exists (pszString : WStr)
  | devProp (key : UInt64)
  | factor (f : Factor)
inductive Factor
  | paren (e : Expr)
  | string (pszString : WStr)
  | variable (v : VariableName)
  | number (dwNumber : UInt64)
end

mutual
def Expr.tokens : Expr → List Token
  | .relation r => r.tokens
  | .logical left op right => left.tokens ++ op.token :: right.tokens
def Relation.tokens : Relation → List Token
  | .unary u => u.tokens
  | .compare left op right => left.tokens ++ op.token :: right.tokens
def Unary.tokens : Unary → List Token
  | .not u => .NOT_TOKEN :: u.tokens
  | .appProp key value =>
    [.APPPROP_TOKEN, .char '(', .NUMERIC_TOKEN key, .char ',', .NUMERIC_TOKEN value, .char ')']
  | .exists s => [.EXISTS_TOKEN, .char '(', .QUOTED_STRING_TOKEN s, .char ')']
  | .devProp key => [.DEVPROP_TOKEN, .char '(', .NUMERIC_TOKEN key, .char ')']
  | .factor f => f.tokens
def Factor.tokens : Factor → List Token
  | .paren e => .char '(' :: (e.tokens ++ [.char ')'])
  | .string s => [.QUOTED_STRING_TOKEN s]
  | .variable v => [.ALPHA_TOKEN v.pszString]
  | .number n => [.NUMERIC_TOKEN n]
end

/-- A number as an operand. -/
def numberCond (n : UInt64) : PKGLINECONDITION := .number .EInstCondPrimTypeNumber n.toUInt32

mutual
/-- The expression a condition stands for. -/
def Expr.cond : Expr → PKGLINECONDITION
  | .relation r => r.cond
  | .logical left op right => .binary op.op left.cond right.cond
def Relation.cond : Relation → PKGLINECONDITION
  | .unary u => u.cond
  | .compare left op right => .binary op.op left.cond right.cond
def Unary.cond : Unary → PKGLINECONDITION
  | .not u => .unary .EInstCondUnaryOpNot u.cond
  | .appProp key value => .binary .EInstCondFuncAppProperties (numberCond key) (numberCond value)
  | .exists s => .unary .EInstCondFuncExists (.string s)
  | .devProp key => .unary .EInstCondFuncDevProperties (numberCond key)
  | .factor f => f.cond
def Factor.cond : Factor → PKGLINECONDITION
  | .paren e => e.cond
  | .string s => .string s
  | .variable v => .number v.prim v.dwNumber
  | .number n => numberCond n
end

/-! ### The parser -/

theorem relationOp_of_logicalOp {t : Token} {op : BinaryOp} (h : logicalOp t = some op) :
    relationOp t = none := by
  unfold logicalOp at h
  split at h
  · rfl
  · rfl
  · cases h

/-- The head of a factor is none of the operators of `ParseUnary`. -/
theorem parseUnary_factor (n : ℕ) (f : Factor) (rest : List Token) :
    ParseUnary (n + 1) (f.tokens ++ rest) = ParseFactor n (f.tokens ++ rest) := by
  rcases f with e | s | v | k
  · rfl
  · rfl
  · rfl
  · rfl

theorem parseLogicalOp_succ (n : ℕ) (ts : List Token) : ParseLogicalOp (n + 1) ts =
    ParseRelation n ts >>= fun x => logicalOpLoop n x.1 x.2 := rfl

theorem parseRelation_succ (n : ℕ) (ts : List Token) : ParseRelation (n + 1) ts =
    ParseUnary n ts >>= fun x =>
      match relationOp (current x.2) with
      | none => .ok x
      | some op => ParseUnary n x.2.tail >>= fun y => .ok (.binary op x.1 y.1, y.2) := rfl

theorem logicalOpLoop_end (n : ℕ) (left : PKGLINECONDITION) {rest : List Token}
    (h : logicalOp (current rest) = none) : logicalOpLoop (n + 1) left rest = .ok (left, rest) := by
  rw [logicalOpLoop, h]

theorem logicalOpLoop_cons (n : ℕ) (left : PKGLINECONDITION) (op : Operator logicalOp)
    (rest : List Token) : logicalOpLoop (n + 1) left (op.token :: rest) =
      ParseLogicalOp n rest >>= fun x => logicalOpLoop n (.binary op.op left x.1) x.2 := by
  rw [logicalOpLoop, current_cons, op.spells]
  rfl

mutual
/-- A condition is parsed to the expression it stands for, up to the token behind it. -/
theorem Expr.parse : ∀ (e : Expr) (rest : List Token) (n : ℕ), 4 * e.tokens.length + 4 ≤ n →
    relationOp (current rest) = none → logicalOp (current rest) = none →
    ParseLogicalOp n (e.tokens ++ rest) = .ok (e.cond, rest)
  | .relation r, rest, n + 2, hn, hrel, hlog => by
    rw [Expr.tokens] at hn ⊢
    rw [parseLogicalOp_succ, r.parse rest (n + 1) (by omega) hrel, pres_ok_bind]
    exact logicalOpLoop_end n r.cond hlog
  | .logical left op right, rest, n + 2, hn, hrel, hlog => by
    rw [Expr.tokens, List.length_append, List.length_cons] at hn
    have hop : relationOp (current (op.token :: (right.tokens ++ rest))) = none :=
      relationOp_of_logicalOp op.spells
    rw [Expr.tokens, List.append_assoc, List.cons_append, parseLogicalOp_succ,
      left.parse _ (n + 1) (by omega) hop, pres_ok_bind, logicalOpLoop_cons,
      right.parse rest n (by omega) hrel hlog, pres_ok_bind]
    obtain ⟨m, rfl⟩ : ∃ m, n = m + 1 := ⟨n - 1, by omega⟩
    exact logicalOpLoop_end m _ hlog
  | .relation _, _, 0, hn, _, _ | .relation _, _, 1, hn, _, _ => by omega
  | .logical _ _ _, _, 0, hn, _, _ | .logical _ _ _, _, 1, hn, _, _ => by omega
theorem Relation.parse : ∀ (r : Relation) (rest : List Token) (n : ℕ), 4 * r.tokens.length + 3 ≤ n →
    relationOp (current rest) = none → ParseRelation n (r.tokens ++ rest) = .ok (r.cond, rest)
  | .unary u, rest, n + 1, hn, hrel => by
    rw [Relation.tokens] at hn ⊢
    rw [parseRelation_succ, u.parse rest n (by omega), pres_ok_bind, hrel]
    rfl
  | .compare left op right, rest, n + 1, hn, hrel => by
    rw [Relation.tokens, List.length_append, List.length_cons] at hn
    rw [Relation.tokens, List.append_assoc, List.cons_append, parseRelation_succ,
      left.parse _ n (by omega), pres_ok_bind, current_cons, op.spells]
    show ParseUnary n (right.tokens ++ rest) >>= _ = _
    rw [right.parse rest n (by omega)]
    rfl
  | .unary _, _, 0, hn, _ | .compare _ _ _, _, 0, hn, _ => by omega
theorem Unary.parse : ∀ (u : Unary) (rest : List Token) (n : ℕ), 4 * u.tokens.length + 2 ≤ n →
    ParseUnary n (u.tokens ++ rest) = .ok (u.cond, rest)
  | .not u, rest, n + 1, hn => by
    rw [Unary.tokens, List.length_cons] at hn
    show ParseUnary n (u.tokens ++ rest) >>= _ = _
    rw [u.parse rest n (by omega)]
    rfl
  | .appProp key value, rest, n, hn => by
    obtain ⟨m, rfl⟩ : ∃ m, n = m + 3 := ⟨n - 3, by simp [Unary.tokens] at hn; omega⟩
    rfl
  | .exists s, rest, n, hn => by
    obtain ⟨m, rfl⟩ : ∃ m, n = m + 3 := ⟨n - 3, by simp [Unary.tokens] at hn; omega⟩
    rfl
  | .devProp key, rest, n, hn => by
    obtain ⟨m, rfl⟩ : ∃ m, n = m + 3 := ⟨n - 3, by simp [Unary.tokens] at hn; omega⟩
    rfl
  | .factor f, rest, n + 1, hn => by
    rw [Unary.tokens] at hn ⊢
    rw [parseUnary_factor, f.parse rest n (by omega), Unary.cond]
  | .not _, _, 0, hn | .factor _, _, 0, hn => by omega
theorem Factor.parse : ∀ (f : Factor) (rest : List Token) (n : ℕ), 4 * f.tokens.length + 1 ≤ n →
    ParseFactor n (f.tokens ++ rest) = .ok (f.cond, rest)
  | .paren e, rest, n + 1, hn => by
    rw [Factor.tokens, List.length_cons, List.length_append] at hn
    rw [Factor.tokens, List.cons_append, List.append_assoc]
    show ParseLogicalOp n (e.tokens ++ (.char ')' :: rest)) >>= _ = _
    rw [e.parse (.char ')' :: rest) n (by simp at hn; omega) rfl rfl]
    rfl
  | .string s, rest, n + 1, hn => rfl
  | .variable v, rest, n + 1, hn => by
    show lookupVariable v.pszString >>= _ = _
    rw [v.known]
    rfl
  | .number k, rest, n + 1, hn => rfl
  | .paren _, _, 0, hn | .string _, _, 0, hn | .variable _, _, 0, hn | .number _, _, 0, hn => by omega
end

theorem ParseExpr_tokens (e : Expr) {rest : List Token} (hrel : relationOp (current rest) = none)
    (hlog : logicalOp (current rest) = none) : ParseExpr (e.tokens ++ rest) = .ok (e.cond, rest) := by
  refine e.parse rest _ ?_ hrel hlog
  rw [exprFuel, List.length_append]
  omega

end Source

end GnuPoc.Pkg
