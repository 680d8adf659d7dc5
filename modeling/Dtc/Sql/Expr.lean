import Mathlib

/-!
# SQL expressions and what they say about a row

The tree the SQL parser hands to its callers. A string is the list of its bytes without the
final zero. `F` stands for the doubles that a literal can denote.
-/

namespace Dtc.Sql

/-- One byte of a string as `strcasecmp` compares it. -/
def lower (c : UInt8) : UInt8 :=
  if 65 ≤ c ∧ c ≤ 90 then c + 32 else c

/-- A string without the case of its letters. -/
def foldCase (s : List UInt8) : List UInt8 :=
  s.map lower

inductive OperatorType
  | none
  | between
  | case
  | caseListElement
  | plus
  | minus
  | asterisk
  | slash
  | percentage
  | caret
  | equals
  | notEquals
  | less
  | lessEq
  | greater
  | greaterEq
  | like
  | notLike
  | iLike
  | and
  | or
  | in
  | concat
  | not
  | unaryMinus
  | isNull
  | exists
  deriving DecidableEq, Repr

namespace OperatorType

/-- The range `kOpLess` to `kOpGreaterEq`. -/
def IsOrder (op : OperatorType) : Prop :=
  op = less ∨ op = lessEq ∨ op = greater ∨ op = greaterEq

instance : DecidablePred IsOrder := fun op => by unfold IsOrder; infer_instance

/-- The range `kOpEquals` to `kOpGreaterEq`. -/
def IsComparison (op : OperatorType) : Prop :=
  op = equals ∨ op = notEquals ∨ op.IsOrder

instance : DecidablePred IsComparison := fun op => by unfold IsComparison; infer_instance

/-- The meaning of a comparison operator on two values of one type. -/
def Compare {α : Type} [LT α] [LE α] : OperatorType → α → α → Prop
  | equals, x, y => x = y
  | notEquals, x, y => x ≠ y
  | less, x, y => x < y
  | lessEq, x, y => x ≤ y
  | greater, x, y => y < x
  | greaterEq, x, y => y ≤ x
  | _, _, _ => False

end OperatorType

inductive Expr (F : Type) where
  | literalFloat (fval : F)
  | literalString (name : List UInt8)
  | literalInt (ival : Int)
  | columnRef (name : List UInt8)
  /-- An operator with one operand; `expr2` is `NULL`. -/
  | unary (opType : OperatorType) (expr : Expr F)
  | binary (opType : OperatorType) (expr expr2 : Expr F)
  deriving DecidableEq, Repr

namespace Expr
variable {F : Type}

/-- The field `opType`; only operators set it. -/
def opType : Expr F → OperatorType
  | unary op _ => op
  | binary op _ _ => op
  | _ => .none

/-- The type is `kExprOperator`. -/
def isOperator : Expr F → Bool
  | unary _ _ => true
  | binary _ _ _ => true
  | _ => false

/-- The pointer `expr`; `none` is `NULL`. -/
def expr : Expr F → Option (Expr F)
  | unary _ e => some e
  | binary _ e _ => some e
  | _ => none

/-- The pointer `expr2`; `none` is `NULL`. -/
def expr2 : Expr F → Option (Expr F)
  | binary _ _ e => some e
  | _ => none

/-- The name of a node; `none` is `NULL`. -/
def getName : Expr F → Option (List UInt8)
  | literalString name => some name
  | columnRef name => some name
  | _ => none

end Expr

/-- What one column of a row holds. -/
inductive Value (F : Type) where
  | null
  | int (v : Int)
  | float (v : F)
  | string (v : List UInt8)
  deriving DecidableEq, Repr

instance {F : Type} : Inhabited (Value F) := ⟨.null⟩

/-- A row: the value of each column, by the column's name in lower case. -/
abbrev Row (F : Type) := List UInt8 → Value F

section Meaning
variable {F : Type} [LinearOrder F]

/-- A value meets a comparison with a literal of its own type, and no other. -/
def Value.Meets (op : OperatorType) : Value F → Expr F → Prop
  | int v, .literalInt n => op.Compare v n
  | float v, .literalFloat x => op.Compare v x
  | string v, .literalString s => op.Compare (foldCase v) (foldCase s)
  | _, _ => False

/-- A row satisfies a condition. Comparisons other than the six of `IsComparison` mean what
`other` says. A condition that is unknown for a `NULL` does not select the row, so there are
two cases only. -/
def Expr.Holds (other : Expr F → Row F → Prop) (row : Row F) : Expr F → Prop
  | .binary .and l r => l.Holds other row ∧ r.Holds other row
  | .binary .or l r => l.Holds other row ∨ r.Holds other row
  | .binary op (.columnRef c) literal =>
    if op.IsComparison then (row (foldCase c)).Meets op literal
    else other (.binary op (.columnRef c) literal) row
  | e => other e row

end Meaning

/-- `column op literal`, with a comparison or a pattern operator. -/
inductive IsCondition {F : Type} (Literal : Expr F → Prop) : Expr F → Prop
  | mk (op : OperatorType) (column : List UInt8) (literal : Expr F) :
      (op.IsComparison ∨ op = .like ∨ op = .notLike ∨ op = .iLike) → Literal literal →
      IsCondition Literal (.binary op (.columnRef column) literal)

/-- A tree of conditions under `AND` and `OR`. -/
inductive IsTree {F : Type} (Literal : Expr F → Prop) : Expr F → Prop
  | condition {e : Expr F} : IsCondition Literal e → IsTree Literal e
  | and {l r : Expr F} : IsTree Literal l → IsTree Literal r → IsTree Literal (.binary .and l r)
  | or {l r : Expr F} : IsTree Literal l → IsTree Literal r → IsTree Literal (.binary .or l r)

end Dtc.Sql
