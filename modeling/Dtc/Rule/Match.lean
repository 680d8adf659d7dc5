import Dtc.Sql.Expr

/-!
# The rule engine: which statements go to the hot store

The rules are the `WHERE` clause of a configuration text, split at its `OR`s into rules and
each rule at its `AND`s into conditions. A statement is compared with one rule after the
other. A result `none` stands for a read through a `NULL` pointer.
-/

namespace Dtc.Rule

open Sql

section Compare
variable {α : Type} [LinearOrder α]

/-- The cascade of `cmp_expr_value` for two numbers; floats and integers go through the
same one. -/
def cmpNumber (input rule : α) (inputType ruleType : OperatorType) : Bool :=
  if inputType = .equals ∧ ruleType = .equals then input = rule
  else if inputType = .notEquals ∧ ruleType = .notEquals then input ≠ rule
  else if ruleType = .less then
    if inputType = .less then input ≤ rule
    else if inputType = .lessEq then input < rule
    else false
  else if ruleType = .lessEq then
    if inputType = .less ∨ inputType = .lessEq then input ≤ rule
    else false
  else if ruleType = .greater then
    if inputType = .greater then rule ≤ input
    else if inputType = .greaterEq then rule < input
    else false
  else if ruleType = .greaterEq then
    if inputType = .greater ∨ inputType = .greaterEq then rule ≤ input
    else false
  else false

end Compare

/-- The same cascade for two strings, which are only compared for equality. -/
def cmpString (input rule : List UInt8) (inputType ruleType : OperatorType) : Bool :=
  if inputType.IsOrder then false
  else if inputType = .equals ∧ ruleType = .equals then foldCase input = foldCase rule
  else if inputType = .notEquals ∧ ruleType = .notEquals then foldCase input ≠ foldCase rule
  else false

section Match
variable {F : Type} [LinearOrder F]

def cmpExprValue (input rule : Expr F) (inputType ruleType : OperatorType) : Bool :=
  match input, rule with
  | .literalFloat x, .literalFloat y => cmpNumber x y inputType ruleType
  | .literalInt x, .literalInt y => cmpNumber x y inputType ruleType
  | .literalString x, .literalString y => cmpString x y inputType ruleType
  | _, _ => false

def doMatchExpr (input rule : Expr F) : Option Bool :=
  if !input.isOperator || !rule.isOperator then some false
  else if input.opType ≠ rule.opType ∧ ¬ input.opType.IsOrder then some false
  else do
    let inputName ← (← input.expr).getName
    let ruleName ← (← rule.expr).getName
    if foldCase inputName ≠ foldCase ruleName then some false
    else some (cmpExprValue (← input.expr2) (← rule.expr2) input.opType rule.opType)

def traverseInputSql (rules : List (Expr F)) : Expr F → Option Bool
  | .binary opType expr expr2 => do
      let found ←
        (if opType.IsComparison then rules.anyM (doMatchExpr (.binary opType expr expr2))
        else some false)
      if found then some true
      else
        let left ←
          (if expr.opType.IsComparison then rules.anyM (doMatchExpr expr)
          else if expr.opType = .and ∨ expr.opType = .or then traverseInputSql rules expr
          else some false)
        let right ←
          (if expr2.opType.IsComparison then rules.anyM (doMatchExpr expr2)
          else if expr2.opType = .and ∨ expr2.opType = .or then traverseInputSql rules expr2
          else some false)
        match opType with
        | .and => some (left || right)
        | .or => some (left && right)
        | _ => some false
  | _ => some false

end Match

/-- A statement, with what routing reads of it. `fromTable` and the conditions may be
`NULL`; so may the name of a schema. -/
inductive SQLStatement (F : Type) where
  | select (fromTable : Option (Option (List UInt8))) (whereClause : Option (Expr F))
  | insert (schema : Option (List UInt8))
  | update (table : Option (List UInt8)) (where_ : Option (Expr F))
  | delete (schema : Option (List UInt8)) (expr : Option (Expr F))
  | other
  deriving DecidableEq, Repr

def specificL1Schema : List UInt8 := [76, 49]
def specificL2Schema : List UInt8 := [76, 50]
def specificL3Schema : List UInt8 := [76, 51]

section Statement
variable {F : Type}

def getSchema : SQLStatement F → Option (List UInt8)
  | .select fromTable _ => return (← fromTable).getD []
  | .insert schema => some (schema.getD [])
  | .update table _ => some (table.getD [])
  | .delete schema _ => some (schema.getD [])
  | .other => some []

def isInsertType : SQLStatement F → Bool
  | .insert _ => true
  | _ => false

def getExpr : SQLStatement F → Option (Expr F)
  | .select _ whereClause => whereClause
  | .update _ where_ => where_
  | .delete _ expr => expr
  | _ => none

variable [LinearOrder F]

/-- The result 0 sends the statement to the hot store. -/
def reMatchSql (sqlAst : List (SQLStatement F)) (exprRules : List (List (Expr F))) :
    Option Int :=
  if 1 < sqlAst.length then some (-2)
  else do
    let statement ← sqlAst.head?
    let schema ← getSchema statement
    if schema = specificL1Schema ∨ schema = specificL2Schema then some 0
    else if schema = specificL3Schema then some 3
    else if isInsertType statement then some 0
    else
      match getExpr statement with
      | none => some (-1)
      | some inputExpr =>
        if ← exprRules.anyM (traverseInputSql · inputExpr) then some 0 else some (-2)

end Statement

section Load
variable {F : Type}

/-- The conditions of one rule. -/
def traverseSubAst : Expr F → List (Expr F)
  | .binary .and l r => traverseSubAst l ++ traverseSubAst r
  | e => [e]

/-- The rules of the configured condition. -/
def traverseAst : Expr F → List (List (Expr F))
  | .binary .or l r => traverseAst l ++ traverseAst r
  | e => [traverseSubAst e]

end Load

end Dtc.Rule
