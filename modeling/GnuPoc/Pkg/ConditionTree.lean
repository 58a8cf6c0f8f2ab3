import GnuPoc.Pkg.Condition
import Mathlib.Data.List.TakeWhile

/-!
# GnuPoc.Pkg.ConditionTree — condition trees, their text and what `ParseExpr` makes of it

A `Condition` is what a condition of a package file means.  Its fully parenthesised text puts every
comparison, `AND` and `OR` into parentheses, with as many further ones as one likes (`Text`); `ParseExpr`
gives the tree back (`parseExpr_text`).  In a chain without parentheses a comparison binds tighter than
`AND` and `OR`, which nest to the right (`group`, `parseExpr_chain`).
-/

namespace GnuPoc.Pkg

/-! ### Trees -/

inductive Comparison
  | equal | notEqual | greater | less | greaterOrEqual | lessOrEqual
  deriving DecidableEq, Repr

inductive Connective
  | and | or
  deriving DecidableEq, Repr

/-- A row of the table of variables. -/
abbrev Variable := Fin KVariableLookupTable.length

def Variable.name (v : Variable) : String := (KVariableLookupTable.get v).1

/-- `(WORD)dwOpt`. -/
def Variable.number (v : Variable) : UInt32 := (KVariableLookupTable.get v).2 &&& 0xFFFF

inductive Condition
  | variable (v : Variable)
  | option (n : UInt32)
  | number (n : UInt32)
  | string (s : WStr)
  | exists (s : WStr)
  | appProp (key value : UInt32)
  | devProp (key : UInt32)
  | not (c : Condition)
  | compare (op : Comparison) (left right : Condition)
  | logical (op : Connective) (left right : Condition)
  deriving DecidableEq, Repr

def Comparison.token : Comparison → Token
  | equal => .char '='
  | notEqual => .NE_TOKEN
  | greater => .char '>'
  | less => .char '<'
  | greaterOrEqual => .GE_TOKEN
  | lessOrEqual => .LE_TOKEN

def Comparison.exprOp : Comparison → BinaryOp
  | equal => .EInstCondBinOpEq
  | notEqual => .EInstCondBinOpNe
  | greater => .EInstCondBinOpGt
  | less => .EInstCondBinOpLt
  | greaterOrEqual => .EInstCondBinOpGe
  | lessOrEqual => .EInstCondBinOpLe

def Connective.token : Connective → Token
  | and => .AND_TOKEN
  | or => .OR_TOKEN

def Connective.exprOp : Connective → BinaryOp
  | and => .EInstCondLogOpAnd
  | or => .EInstCondLogOpOr

/-- The nodes of a tree. -/
def Condition.cond : Condition → PKGLINECONDITION
  | .variable v => .number .EInstCondPrimTypeVariable v.number
  | .option n => .number .EInstCondPrimTypeOption n
  | .number n => .number .EInstCondPrimTypeNumber n
  | .string s => .string s
  | .exists s => .unary .EInstCondFuncExists (.string s)
  | .appProp key value => .binary .EInstCondFuncAppProperties (.number .EInstCondPrimTypeNumber key)
      (.number .EInstCondPrimTypeNumber value)
  | .devProp key => .unary .EInstCondFuncDevProperties (.number .EInstCondPrimTypeNumber key)
  | .not c => .unary .EInstCondUnaryOpNot c.cond
  | .compare op left right => .binary op.exprOp left.cond right.cond
  | .logical op left right => .binary op.exprOp left.cond right.cond

@[simp] theorem Comparison.relationOp_token (op : Comparison) : relationOp op.token = some op.exprOp := by
  cases op <;> rfl

@[simp] theorem Comparison.logicalOp_token (op : Comparison) : logicalOp op.token = none := by
  cases op <;> rfl

@[simp] theorem Connective.logicalOp_token (op : Connective) : logicalOp op.token = some op.exprOp := by
  cases op <;> rfl

@[simp] theorem Connective.relationOp_token (op : Connective) : relationOp op.token = none := by
  cases op <;> rfl

/-! ### Names -/

theorem map_towlower_of_wcsicmp {s t : WStr} (h : wcsicmp s t = true) : s.map towlower = t.map towlower := by
  simpa [wcsicmp] using h

/-- No variable's name begins with `option`, and no two names are the same. -/
theorem variable_row : ∀ v : Variable, wcsicmp ((wstr v.name).take 6) (wstr "option") = false ∧
    findOption KVariableLookupTable (wstr v.name) = some (KVariableLookupTable.get v).2 := by
  decide +kernel

theorem lookupVariable_name {v : Variable} {s : WStr} (h : wcsicmp s (wstr v.name) = true) :
    lookupVariable s = .ok (.EInstCondPrimTypeVariable, v.number) := by
  have hmap := map_towlower_of_wcsicmp h
  have hsix : wcsicmp (s.take 6) (wstr "option") = wcsicmp ((wstr v.name).take 6) (wstr "option") := by
    simp only [wcsicmp, List.map_take, hmap]
  have hfind : findOption KVariableLookupTable s = findOption KVariableLookupTable (wstr v.name) := by
    simp only [findOption, wcsicmp, hmap]
  obtain ⟨hoption, hrow⟩ := variable_row v
  rw [lookupVariable, hsix, hoption, hfind, hrow]
  rfl

/-- A decimal numeral with the value `n`. -/
def OptionNumber (n : ℕ) (digits : List Char) : Prop :=
  digits ≠ [] ∧ (∀ c ∈ digits, c.isDigit = true) ∧ Nat.ofDigitChars 10 digits 0 = n

theorem optionNumber_toDigits (n : ℕ) : OptionNumber n (Nat.toDigits 10 n) :=
  ⟨Nat.toDigits_ne_nil, fun _ hc => Nat.isDigit_of_mem_toDigits (by omega) (by omega) hc,
    Nat.ofDigitChars_ten_toDigits⟩

theorem wcstol_optionNumber {n : ℕ} {digits : List Char} (h : OptionNumber n digits) (hn : n < 2 ^ 63) :
    wcstol (digits.map Char.val) = some (UInt64.ofNat n) := by
  obtain ⟨hne, hdigits, hvalue⟩ := h
  have hall : (digits.map Char.val).takeWhile (fun c => 48 ≤ c && c ≤ 57) = digits.map Char.val := by
    rw [List.takeWhile_eq_self_iff]
    rintro _ hc
    obtain ⟨c, hmem, rfl⟩ := List.mem_map.mp hc
    have hdigit := hdigits c hmem
    simpa [Char.isDigit] using hdigit
  have hfold : (digits.map Char.val).foldl (fun n c => 10 * n + (c.toNat - 48)) 0 = n := by
    rw [List.foldl_map, ← hvalue, Nat.ofDigitChars_eq_foldl]
    rfl
  rw [wcstol, hall, hfold, if_neg (by simp [hne]; omega)]

theorem lookupVariable_option {n : UInt32} {s : WStr} {digits : List Char}
    (hs : wcsicmp s (wstr "option") = true) (hd : OptionNumber n.toNat digits) :
    lookupVariable (s ++ digits.map Char.val) = .ok (.EInstCondPrimTypeOption, n) := by
  have hlen : s.length = 6 := by
    have := congrArg List.length (map_towlower_of_wcsicmp hs)
    simpa [wstr] using this
  have hn := n.toNat_lt
  rw [lookupVariable, List.take_left' hlen, List.drop_left' hlen, if_pos hs,
    wcstol_optionNumber hd (by omega)]
  simp

/-! ### Text -/

/-- The fully parenthesised texts of a tree. -/
inductive Text : Condition → List Token → Prop
  | variable {v : Variable} {s : WStr} (h : wcsicmp s (wstr v.name) = true) :
    Text (.variable v) [.ALPHA_TOKEN s]
  | option {n : UInt32} {s : WStr} {digits : List Char} (h : wcsicmp s (wstr "option") = true)
    (hd : OptionNumber n.toNat digits) : Text (.option n) [.ALPHA_TOKEN (s ++ digits.map Char.val)]
  | number (n : UInt32) : Text (.number n) [.NUMERIC_TOKEN n.toUInt64]
  | string (s : WStr) : Text (.string s) [.QUOTED_STRING_TOKEN s]
  | exists (s : WStr) :
    Text (.exists s) [.EXISTS_TOKEN, .char '(', .QUOTED_STRING_TOKEN s, .char ')']
  | appProp (key value : UInt32) : Text (.appProp key value)
    [.APPPROP_TOKEN, .char '(', .NUMERIC_TOKEN key.toUInt64, .char ',', .NUMERIC_TOKEN value.toUInt64,
      .char ')']
  | devProp (key : UInt32) :
    Text (.devProp key) [.DEVPROP_TOKEN, .char '(', .NUMERIC_TOKEN key.toUInt64, .char ')']
  | not {c : Condition} {ts : List Token} (h : Text c ts) : Text (.not c) (.NOT_TOKEN :: ts)
  | compare {left right : Condition} {tsl tsr : List Token} (op : Comparison) (hl : Text left tsl)
    (hr : Text right tsr) :
    Text (.compare op left right) (.char '(' :: ((tsl ++ op.token :: tsr) ++ [.char ')']))
  | logical {left right : Condition} {tsl tsr : List Token} (op : Connective) (hl : Text left tsl)
    (hr : Text right tsr) :
    Text (.logical op left right) (.char '(' :: ((tsl ++ op.token :: tsr) ++ [.char ')']))
  | paren {c : Condition} {ts : List Token} (h : Text c ts) :
    Text c (.char '(' :: (ts ++ [.char ')']))

theorem exists_text (c : Condition) : ∃ ts, Text c ts := by
  induction c with
  | «variable» v => exact ⟨_, .variable (s := wstr v.name) (by simp [wcsicmp])⟩
  | option n => exact ⟨_, .option (s := wstr "option") (by simp [wcsicmp]) (optionNumber_toDigits n.toNat)⟩
  | number n => exact ⟨_, .number n⟩
  | string s => exact ⟨_, .string s⟩
  | «exists» s => exact ⟨_, .exists s⟩
  | appProp key value => exact ⟨_, .appProp key value⟩
  | devProp key => exact ⟨_, .devProp key⟩
  | not c ih =>
    obtain ⟨ts, h⟩ := ih
    exact ⟨_, .not h⟩
  | compare op left right ihl ihr =>
    obtain ⟨tsl, hl⟩ := ihl
    obtain ⟨tsr, hr⟩ := ihr
    exact ⟨_, .compare op hl hr⟩
  | logical op left right ihl ihr =>
    obtain ⟨tsl, hl⟩ := ihl
    obtain ⟨tsr, hr⟩ := ihr
    exact ⟨_, .logical op hl hr⟩

open Source in
/-- A text is a `ParseUnary` of the grammar that stands for the tree. -/
theorem Text.unary {c : Condition} {ts : List Token} (h : Text c ts) :
    ∃ u : Unary, u.tokens = ts ∧ u.cond = c.cond := by
  induction h with
  | @«variable» v s h =>
    exact ⟨.factor (.variable ⟨s, _, _, lookupVariable_name h⟩), rfl, rfl⟩
  | @option n s digits h hd =>
    exact ⟨.factor (.variable ⟨_, _, _, lookupVariable_option h hd⟩), rfl, rfl⟩
  | number n =>
    refine ⟨.factor (.number n.toUInt64), rfl, ?_⟩
    simp [Unary.cond, Factor.cond, numberCond, Condition.cond]
  | string s => exact ⟨.factor (.string s), rfl, rfl⟩
  | «exists» s => exact ⟨.exists s, rfl, rfl⟩
  | appProp key value =>
    refine ⟨.appProp key.toUInt64 value.toUInt64, rfl, ?_⟩
    simp [Unary.cond, numberCond, Condition.cond]
  | devProp key =>
    refine ⟨.devProp key.toUInt64, rfl, ?_⟩
    simp [Unary.cond, numberCond, Condition.cond]
  | not _ ih =>
    obtain ⟨u, rfl, hu⟩ := ih
    exact ⟨.not u, by rw [Unary.tokens], by rw [Unary.cond, hu, Condition.cond]⟩
  | compare op _ _ ihl ihr =>
    obtain ⟨l, rfl, hl⟩ := ihl
    obtain ⟨r, rfl, hr⟩ := ihr
    refine ⟨.factor (.paren (.relation (.compare l ⟨op.token, op.exprOp, op.relationOp_token⟩ r))), ?_, ?_⟩
    · rw [Unary.tokens, Factor.tokens, Expr.tokens, Relation.tokens]
    · rw [Unary.cond, Factor.cond, Expr.cond, Relation.cond, hl, hr, Condition.cond]
  | logical op _ _ ihl ihr =>
    obtain ⟨l, rfl, hl⟩ := ihl
    obtain ⟨r, rfl, hr⟩ := ihr
    refine ⟨.factor (.paren (.logical (.unary l) ⟨op.token, op.exprOp, op.logicalOp_token⟩
      (.relation (.unary r)))), ?_, ?_⟩
    · rw [Unary.tokens, Factor.tokens, Expr.tokens, Relation.tokens, Expr.tokens, Relation.tokens]
    · rw [Unary.cond, Factor.cond, Expr.cond, Relation.cond, Expr.cond, Relation.cond, hl, hr,
        Condition.cond]
  | paren _ ih =>
    obtain ⟨u, rfl, hu⟩ := ih
    refine ⟨.factor (.paren (.relation (.unary u))), ?_, ?_⟩
    · rw [Unary.tokens, Factor.tokens, Expr.tokens, Relation.tokens]
    · rw [Unary.cond, Factor.cond, Expr.cond, Relation.cond, hu]

theorem Text.parseUnary {c : Condition} {ts : List Token} (h : Text c ts) (rest : List Token) {n : ℕ}
    (hn : 4 * ts.length + 2 ≤ n) : ParseUnary n (ts ++ rest) = .ok (c.cond, rest) := by
  obtain ⟨u, rfl, hu⟩ := h.unary
  rw [← hu]
  exact u.parse rest n hn

/-- `ParseExpr` gives the tree of a text back, with the token behind it. -/
theorem parseExpr_text {c : Condition} {ts : List Token} (h : Text c ts) {rest : List Token}
    (hrel : relationOp (current rest) = none) (hlog : logicalOp (current rest) = none) :
    ParseExpr (ts ++ rest) = .ok (c.cond, rest) := by
  obtain ⟨u, rfl, hu⟩ := h.unary
  have hparse := Source.ParseExpr_tokens (.relation (.unary u)) hrel hlog
  rw [Source.Expr.tokens, Source.Relation.tokens, Source.Expr.cond, Source.Relation.cond, hu] at hparse
  exact hparse

/-! ### Chains -/

/-- An operand of a chain, with one of its texts. -/
structure Operand where
  tree : Condition
  tokens : List Token
  text : Text tree tokens

/-- A number as an operand. -/
def Operand.ofNumber (n : UInt32) : Operand := ⟨.number n, [.NUMERIC_TOKEN n.toUInt64], .number n⟩

inductive LinkOp
  | compare (op : Comparison)
  | logical (op : Connective)

def LinkOp.token : LinkOp → Token
  | compare op => op.token
  | logical op => op.token

/-- The operators of a chain behind its first operand, each with the operand to its right. -/
abbrev Links := List (LinkOp × Operand)

def linkTokens : Links → List Token
  | [] => []
  | (op, x) :: links => op.token :: (x.tokens ++ linkTokens links)

/-- The tree of a chain that begins with `x`, and the links the tree does not reach.  A comparison takes the
two operands next to it, `AND` and `OR` nest to the right, and the tree ends before the second of two
comparisons in a row. -/
def group : Condition → Links → Condition × Links
  | x, [] => (x, [])
  | x, (.logical op, y) :: links => (.logical op x (group y.tree links).1, (group y.tree links).2)
  | x, [(.compare op, y)] => (.compare op x y.tree, [])
  | x, (.compare op, y) :: (.compare op', z) :: links =>
    (.compare op x y.tree, (.compare op', z) :: links)
  | x, (.compare op, y) :: (.logical op', z) :: links =>
    (.logical op' (.compare op x y.tree) (group z.tree links).1, (group z.tree links).2)

/-- The tree in which every operator takes all of the chain to its right. -/
def rightNested : Condition → Links → Condition
  | x, [] => x
  | x, (.compare op, y) :: links => .compare op x (rightNested y.tree links)
  | x, (.logical op, y) :: links => .logical op x (rightNested y.tree links)

theorem group_rest (x : Condition) (links : Links) :
    (group x links).2 = [] ∨ ∃ op y rest, (group x links).2 = (.compare op, y) :: rest := by
  induction x, links using group.induct with
  | case1 x => exact .inl rfl
  | case2 x op y links ih =>
    rw [group]
    exact ih
  | case3 x op y => exact .inl rfl
  | case4 x op y op' z links => exact .inr ⟨op', z, links, rfl⟩
  | case5 x op y op' z links ih =>
    rw [group]
    exact ih

theorem logicalOp_group_rest (x : Condition) (links : Links) {rest : List Token}
    (h : logicalOp (current rest) = none) :
    logicalOp (current (linkTokens (group x links).2 ++ rest)) = none := by
  obtain hnil | ⟨op, y, links', hcons⟩ := group_rest x links
  · rw [hnil]
    exact h
  · rw [hcons]
    exact op.logicalOp_token

theorem parseRelation_text {c : Condition} {ts rest : List Token} (h : Text c ts)
    (hrel : relationOp (current rest) = none) {n : ℕ} (hn : 4 * ts.length + 3 ≤ n) :
    ParseRelation n (ts ++ rest) = .ok (c.cond, rest) := by
  obtain ⟨m, rfl⟩ : ∃ m, n = m + 1 := ⟨n - 1, by omega⟩
  rw [Source.parseRelation_succ, h.parseUnary rest (by omega), pres_ok_bind, hrel]

theorem parseRelation_compare {l r : Condition} {tsl tsr : List Token} (op : Comparison) (hl : Text l tsl)
    (hr : Text r tsr) (rest : List Token) {n : ℕ} (hn : 4 * (tsl.length + tsr.length) + 7 ≤ n) :
    ParseRelation n (tsl ++ op.token :: (tsr ++ rest)) = .ok (.binary op.exprOp l.cond r.cond, rest) := by
  obtain ⟨m, rfl⟩ : ∃ m, n = m + 1 := ⟨n - 1, by omega⟩
  rw [Source.parseRelation_succ, hl.parseUnary _ (by omega), pres_ok_bind, current_cons,
    op.relationOp_token]
  simp only [List.tail_cons]
  rw [hr.parseUnary rest (by omega)]
  rfl

/-- The loop of `ParseLogicalOp` at `AND` or `OR`, when the right operand ends where no operator of the loop
follows. -/
theorem logicalOpLoop_connective (left right : PKGLINECONDITION) (op : Connective) {ts rest : List Token}
    {n : ℕ} (hright : ParseLogicalOp (n + 1) ts = .ok (right, rest)) (hlog : logicalOp (current rest) = none) :
    logicalOpLoop (n + 2) left (op.token :: ts) = .ok (.binary op.exprOp left right, rest) := by
  rw [Source.logicalOpLoop_cons (n + 1) left ⟨op.token, op.exprOp, op.logicalOp_token⟩, hright, pres_ok_bind]
  exact Source.logicalOpLoop_end n _ hlog

/-- A chain of links is grouped as the parser nests it. -/
theorem parseLogicalOp_chain (x : Condition) (links : Links) {ts rest : List Token} (hx : Text x ts)
    (hrel : relationOp (current rest) = none) (hlog : logicalOp (current rest) = none) {n : ℕ}
    (hn : 4 * (ts.length + (linkTokens links).length) + 4 ≤ n) :
    ParseLogicalOp n (ts ++ (linkTokens links ++ rest)) =
      .ok ((group x links).1.cond, linkTokens (group x links).2 ++ rest) := by
  induction x, links using group.induct generalizing ts n with
  | case1 x =>
    obtain ⟨m, rfl⟩ : ∃ m, n = m + 2 := ⟨n - 2, by omega⟩
    rw [Source.parseLogicalOp_succ, linkTokens, List.nil_append,
      parseRelation_text hx hrel (by simp [linkTokens] at hn; omega), pres_ok_bind]
    exact Source.logicalOpLoop_end m _ hlog
  | case2 x op y links ih =>
    simp only [linkTokens, LinkOp.token, List.length_cons, List.length_append] at hn
    obtain ⟨m, rfl⟩ : ∃ m, n = m + 3 := ⟨n - 3, by omega⟩
    have hright := ih y.text (n := m + 1) (by omega)
    have hop : relationOp (current (op.token :: (y.tokens ++ (linkTokens links ++ rest)))) = none :=
      op.relationOp_token
    rw [linkTokens, LinkOp.token, List.cons_append, List.append_assoc, Source.parseLogicalOp_succ,
      parseRelation_text hx hop (by omega), pres_ok_bind,
      logicalOpLoop_connective _ _ op hright (logicalOp_group_rest _ _ hlog)]
    rfl
  | case3 x op y =>
    simp only [linkTokens, LinkOp.token, List.length_cons, List.length_append, List.length_nil] at hn
    obtain ⟨m, rfl⟩ : ∃ m, n = m + 2 := ⟨n - 2, by omega⟩
    rw [linkTokens, LinkOp.token, linkTokens, List.append_nil, List.cons_append, Source.parseLogicalOp_succ,
      parseRelation_compare op hx y.text rest (by omega), pres_ok_bind]
    exact Source.logicalOpLoop_end m _ hlog
  | case4 x op y op' z links =>
    simp only [linkTokens, LinkOp.token, List.length_cons, List.length_append] at hn
    obtain ⟨m, rfl⟩ : ∃ m, n = m + 2 := ⟨n - 2, by omega⟩
    rw [linkTokens, LinkOp.token, List.cons_append, List.append_assoc, Source.parseLogicalOp_succ,
      parseRelation_compare op hx y.text _ (by omega), pres_ok_bind]
    exact Source.logicalOpLoop_end m _ op'.logicalOp_token
  | case5 x op y op' z links ih =>
    simp only [linkTokens, LinkOp.token, List.length_cons, List.length_append] at hn
    obtain ⟨m, rfl⟩ : ∃ m, n = m + 3 := ⟨n - 3, by omega⟩
    have hright := ih z.text (n := m + 1) (by omega)
    rw [linkTokens, LinkOp.token, List.cons_append, List.append_assoc, Source.parseLogicalOp_succ,
      parseRelation_compare op hx y.text _ (by omega), pres_ok_bind, linkTokens, LinkOp.token,
      List.cons_append, List.append_assoc,
      logicalOpLoop_connective _ _ op' hright (logicalOp_group_rest _ _ hlog)]
    rfl

/-- A chain is parsed to its tree, and the parser stands at the first link the tree does not reach or at the
token behind the chain. -/
theorem parseExpr_chain (x : Operand) (links : Links) {rest : List Token}
    (hrel : relationOp (current rest) = none) (hlog : logicalOp (current rest) = none) :
    ParseExpr (x.tokens ++ (linkTokens links ++ rest)) =
      .ok ((group x.tree links).1.cond, linkTokens (group x.tree links).2 ++ rest) := by
  refine parseLogicalOp_chain x.tree links x.text hrel hlog ?_
  simp only [exprFuel, List.length_append]
  omega

/-- No two comparisons follow each other. -/
def Separated (links : Links) : Prop :=
  links.IsChain fun a b => (∃ op, a.1 = .logical op) ∨ ∃ op, b.1 = .logical op

theorem group_separated (x : Condition) (links : Links) :
    (group x links).2 = [] ↔ Separated links := by
  induction x, links using group.induct with
  | case1 x => simp [group, Separated]
  | case2 x op y links ih =>
    rw [group, ih, Separated, Separated]
    cases links <;> simp
  | case3 x op y => simp [group, Separated]
  | case4 x op y op' z links => simp [group, Separated]
  | case5 x op y op' z links ih =>
    rw [group, ih, Separated, Separated]
    cases links <;> simp

end GnuPoc.Pkg
