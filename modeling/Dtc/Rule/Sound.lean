import Dtc.Rule.Match

/-!
# When routing by rules is safe

A rule is an `AND` of conditions, but a statement is compared with its conditions one by one
and any of them is enough. So a statement can be sent to the hot store although only one
condition of a rule is known to hold, and for `!=` not even that one. The rule sets for
which routing is safe are exactly those where no condition says less than the whole set.
-/

namespace Dtc.Rule

open Sql List Expr

section Search
variable {α : Type} {f : α → Option Bool} {l l' : List α}

/-- A search that may fail finds an element after elements that are all refused. -/
theorem anyM_eq_some_true_iff :
    l.anyM f = some true ↔ ∃ before c after, l = before ++ c :: after ∧
      (∀ x ∈ before, f x = some false) ∧ f c = some true := by
  constructor
  · intro found
    induction l with
    | nil => simp at found
    | cons x l ih =>
      match first : f x with
      | none => simp [first] at found
      | some true => exact ⟨[], x, l, rfl, by simp, first⟩
      | some false =>
        obtain ⟨before, c, after, rfl, refused, holds⟩ := ih (by simpa [first] using found)
        exact ⟨x :: before, c, after, rfl, by simpa [first] using refused, holds⟩
  · rintro ⟨before, c, after, rfl, refused, holds⟩
    induction before with
    | nil => simp [holds]
    | cons x before ih =>
      simp only [forall_mem_cons] at refused
      simp [refused.1, ih refused.2]

/-- A search without failures finds what is there. -/
theorem anyM_eq_some_true {c : α} (mem : c ∈ l) (total : ∀ x ∈ l, f x ≠ none)
    (holds : f c = some true) : l.anyM f = some true := by
  induction l with
  | nil => cases mem
  | cons x l ih =>
    simp only [forall_mem_cons] at total
    rw [anyM_cons]
    match first : f x with
    | none => exact absurd first total.1
    | some true => rfl
    | some false =>
      have : c ∈ l := by
        rcases mem_cons.mp mem with rfl | mem
        · simp [holds] at first
        · exact mem
      simpa using ih this total.2

theorem anyM_append_eq_some_true (found : l.anyM f = some true) : (l ++ l').anyM f = some true := by
  obtain ⟨before, c, after, rfl, refused, holds⟩ := anyM_eq_some_true_iff.mp found
  exact anyM_eq_some_true_iff.mpr ⟨before, c, after ++ l', by simp, refused, holds⟩

theorem anyM_append_of_refused (refused : l.anyM f = some false) :
    (l ++ l').anyM f = l'.anyM f := by
  induction l with
  | nil => rfl
  | cons x l ih =>
    match first : f x with
    | none => simp [first] at refused
    | some true => simp [first] at refused
    | some false => simpa [first] using ih (by simpa [first] using refused)

theorem anyM_append_of_failed (failed : l.anyM f = none) : (l ++ l').anyM f = none := by
  induction l with
  | nil => simp at failed
  | cons x l ih =>
    match first : f x with
    | none => simp [first]
    | some true => simp [first] at failed
    | some false => simpa [first] using ih (by simpa [first] using failed)

/-- Searching lists one after the other is searching them all as one. -/
theorem anyM_flatten (ls : List (List α)) : ls.flatten.anyM f = ls.anyM (·.anyM f) := by
  induction ls with
  | nil => rfl
  | cons l ls ih =>
    rw [flatten_cons, anyM_cons]
    match first : l.anyM f with
    | none => simp [anyM_append_of_failed first]
    | some true => simp [anyM_append_eq_some_true first]
    | some false => simp [anyM_append_of_refused first, ih]

end Search

variable {i : OperatorType}

section Compare
variable {F : Type} [LinearOrder F]

open OperatorType

/-- What a match of two numbers says: the operators are both `=`, both `!=`, or the one
implies the other. -/
theorem cmpNumber_sound {α : Type} [LinearOrder α] {x y : α} {r : OperatorType}
    (matched : cmpNumber x y i r = true) :
    i = .equals ∧ r = .equals ∧ x = y ∨ i = .notEquals ∧ r = .notEquals ∨
      i.IsOrder ∧ r.IsOrder ∧ ∀ v, i.Compare v x → r.Compare v y := by
  unfold cmpNumber at matched
  split_ifs at matched with equal notEqual less lessIn lessEqIn lessEq lessEqIn greater greaterIn
    greaterEqIn greaterEq greaterEqIn
  · exact .inl ⟨equal.1, equal.2, of_decide_eq_true matched⟩
  · exact .inr (.inl notEqual)
  all_goals
    refine .inr (.inr ⟨by grind [IsOrder], by grind [IsOrder], ?_⟩)
    intro v holds
    grind [Compare]

theorem cmpString_sound {x y : List UInt8} {r : OperatorType} (matched : cmpString x y i r = true) :
    i = .equals ∧ r = .equals ∧ foldCase x = foldCase y ∨ i = .notEquals ∧ r = .notEquals := by
  unfold cmpString at matched
  split_ifs at matched with order equal notEqual
  · exact .inl ⟨equal.1, equal.2, of_decide_eq_true matched⟩
  · exact .inr notEqual

/-- An integer or a string literal. -/
inductive IsIntOrString : Expr F → Prop
  | int (n : Int) : IsIntOrString (.literalInt n)
  | string (s : List UInt8) : IsIntOrString (.literalString s)

/-- The value is of the literal's type. -/
def Comparable : Value F → Expr F → Prop
  | .int _, .literalInt _ => True
  | .string _, .literalString _ => True
  | _, _ => False

variable {other : Expr F → Row F → Prop} {row : Row F} {c d : List UInt8} {x y : Expr F}
  {i r : OperatorType}

theorem holds_comparison (comparison : r.IsComparison) :
    (binary r (.columnRef c) x).Holds other row ↔ (row (foldCase c)).Meets r x := by
  rcases comparison with rfl | rfl | rfl | rfl | rfl | rfl <;> simp [Holds, IsComparison, IsOrder]

theorem doMatchExpr_condition :
    doMatchExpr (.binary i (.columnRef c) x) (.binary r (.columnRef d) y) =
      some (decide ((i = r ∨ i.IsOrder) ∧ foldCase c = foldCase d) && cmpExprValue x y i r) := by
  by_cases ops : i = r ∨ i.IsOrder
  · by_cases names : foldCase c = foldCase d
    · simp [doMatchExpr, isOperator, opType, expr, expr2, getName, names, ops, imp_iff_not_or]
    · simp [doMatchExpr, isOperator, opType, expr, getName, names]
  · simp only [not_or] at ops
    simp [doMatchExpr, isOperator, opType, ops]

/-- What a matched comparison says about the rows of the statement. -/
theorem holds_of_doMatchExpr (plain : IsIntOrString x)
    (matched : doMatchExpr (.binary i (.columnRef c) x) (.binary r (.columnRef d) y) = some true)
    (meets : (row (foldCase c)).Meets i x) :
    r = .equals ∧ IsIntOrString y ∧ (row (foldCase d)).Meets r y ∨
      i.IsOrder ∧ r.IsOrder ∧ (∃ n, y = .literalInt n) ∧ (row (foldCase d)).Meets r y ∨
      r = .notEquals ∧ IsIntOrString y ∧ Comparable (row (foldCase d)) y := by
  rw [doMatchExpr_condition, Option.some.injEq, Bool.and_eq_true, decide_eq_true_iff] at matched
  obtain ⟨⟨-, names⟩, matched⟩ := matched
  rw [← names]
  cases plain with
  | int n =>
    cases y with
    | literalInt m =>
      match value : row (foldCase c) with
      | .int v =>
        rw [value] at meets
        rcases cmpNumber_sound matched with ⟨rfl, rfl, rfl⟩ | ⟨rfl, rfl⟩ | ⟨order, order', sound⟩
        · exact .inl ⟨rfl, .int n, meets⟩
        · exact .inr (.inr ⟨rfl, .int m, trivial⟩)
        · exact .inr (.inl ⟨order, order', ⟨m, rfl⟩, sound v meets⟩)
      | .null | .float _ | .string _ => simp [value, Value.Meets] at meets
    | _ => simp [cmpExprValue] at matched
  | string s =>
    cases y with
    | literalString t =>
      match value : row (foldCase c) with
      | .string v =>
        rw [value] at meets
        rcases cmpString_sound matched with ⟨rfl, rfl, same⟩ | ⟨rfl, rfl⟩
        · refine .inl ⟨rfl, .string t, ?_⟩
          exact Eq.trans meets same
        · exact .inr (.inr ⟨rfl, .string t, trivial⟩)
      | .null | .float _ | .int _ => simp [value, Value.Meets] at meets
    | _ => simp [cmpExprValue] at matched

end Compare

/-- The comparisons of a tree. -/
def comparisons {F : Type} : Expr F → List (Expr F)
  | .binary .and l r => comparisons l ++ comparisons r
  | .binary .or l r => comparisons l ++ comparisons r
  | e => if e.opType.IsComparison then [e] else []

theorem comparisons_condition {F : Type} {Literal : Expr F → Prop} {e : Expr F}
    (condition : IsCondition Literal e) :
    comparisons e = if e.opType.IsComparison then [e] else [] := by
  obtain ⟨op, column, literal, kind, -⟩ := condition
  rcases kind with (rfl | rfl | rfl | rfl | rfl | rfl) | rfl | rfl | rfl <;> rfl

theorem comparison_of_mem {F : Type} {e i : Expr F} (tree : IsTree IsIntOrString e)
    (mem : i ∈ comparisons e) :
    ∃ op column literal, i = .binary op (.columnRef column) literal ∧ op.IsComparison ∧
      IsIntOrString literal := by
  induction tree with
  | condition condition =>
    rw [comparisons_condition condition] at mem
    split_ifs at mem with comparison
    · obtain rfl := mem_singleton.mp mem
      obtain ⟨op, column, literal, -, plain⟩ := condition
      exact ⟨op, column, literal, rfl, comparison, plain⟩
    · cases mem
  | and left right ihl ihr | or left right ihl ihr =>
    rcases mem_append.mp mem with mem | mem
    · exact ihl mem
    · exact ihr mem

section Tree
variable {F : Type} [LinearOrder F] {rules : List (Expr F)} {e l r : Expr F}

theorem traverseInputSql_condition (condition : IsCondition IsIntOrString e) :
    traverseInputSql rules e =
      if e.opType.IsComparison then rules.anyM (doMatchExpr e) else some false := by
  obtain ⟨op, column, literal, kind, plain⟩ := condition
  -- the operands are no operators, so only the comparison itself is looked up
  have none_left : (columnRef column : Expr F).opType = .none := rfl
  have none_right : literal.opType = .none := by cases plain <;> rfl
  have no_comparison : ¬ OperatorType.none.IsComparison := by decide
  rw [traverseInputSql]
  simp only [none_left, none_right, if_neg no_comparison, reduceCtorEq, or_self, if_false,
    Option.bind_eq_bind, Option.bind_some]
  change _ = if op.IsComparison then _ else _
  by_cases comparison : op.IsComparison
  · simp only [if_pos comparison]
    match rules.anyM (doMatchExpr (.binary op (.columnRef column) literal)) with
    | none => rfl
    | some true => rfl
    | some false => rcases comparison with rfl | rfl | rfl | rfl | rfl | rfl <;> rfl
  · rw [if_neg comparison]
    rcases kind with kind | rfl | rfl | rfl
    · exact absurd kind comparison
    all_goals rfl

/-- What `traverse_input_sql` does with an operand is what it does with a statement. -/
theorem traverseInputSql_operand (tree : IsTree IsIntOrString e) :
    (if e.opType.IsComparison then rules.anyM (doMatchExpr e)
      else if e.opType = .and ∨ e.opType = .or then traverseInputSql rules e
      else some false) = traverseInputSql rules e := by
  cases tree with
  | condition condition =>
    rw [traverseInputSql_condition condition]
    split_ifs <;> rfl
  | and left right =>
    have : ¬ OperatorType.and.IsComparison := by decide
    simp [opType, this]
  | or left right =>
    have : ¬ OperatorType.or.IsComparison := by decide
    simp [opType, this]

theorem traverseInputSql_and (left : IsTree IsIntOrString l) (right : IsTree IsIntOrString r) :
    traverseInputSql rules (.binary .and l r) =
      (do let a ← traverseInputSql rules l
          let b ← traverseInputSql rules r
          some (a || b)) := by
  have : ¬ OperatorType.and.IsComparison := by decide
  rw [traverseInputSql, traverseInputSql_operand left, traverseInputSql_operand right]
  simp [this]

theorem traverseInputSql_or (left : IsTree IsIntOrString l) (right : IsTree IsIntOrString r) :
    traverseInputSql rules (.binary .or l r) =
      (do let a ← traverseInputSql rules l
          let b ← traverseInputSql rules r
          some (a && b)) := by
  have : ¬ OperatorType.or.IsComparison := by decide
  rw [traverseInputSql, traverseInputSql_operand left, traverseInputSql_operand right]
  simp [this]

/-- Every comparison of a statement is looked up, also where the result is already known. -/
theorem anyM_ne_none_of_traverse (tree : IsTree IsIntOrString e)
    (total : traverseInputSql rules e ≠ none) :
    ∀ i ∈ comparisons e, rules.anyM (doMatchExpr i) ≠ none := by
  induction tree with
  | condition condition =>
    intro i mem
    rw [comparisons_condition condition] at mem
    rw [traverseInputSql_condition condition] at total
    split_ifs at mem total
    · obtain rfl := mem_singleton.mp mem
      exact total
    · cases mem
  | @and l r left right ihl ihr | @or l r left right ihl ihr =>
    simp only [traverseInputSql_and left right, traverseInputSql_or left right] at total
    intro i mem
    rcases mem_append.mp mem with mem | mem
    · exact ihl (fun failed => total (by simp [failed])) i mem
    · refine ihr (fun failed => total ?_) i mem
      cases traverseInputSql rules l <;> simp [failed]

/-- A row of a matched statement meets a comparison that matches one of the conditions. -/
theorem exists_comparison_of_traverse {other : Expr F → Row F → Prop} {row : Row F}
    (tree : IsTree IsIntOrString e) (matched : traverseInputSql rules e = some true)
    (holds : e.Holds other row) :
    ∃ i ∈ comparisons e, i.Holds other row ∧ rules.anyM (doMatchExpr i) = some true := by
  induction tree with
  | @condition e condition =>
    rw [traverseInputSql_condition condition] at matched
    split_ifs at matched with comparison
    · exact ⟨e, by simp [comparisons_condition condition, comparison], holds, matched⟩
    · cases matched
  | @and l r left right ihl ihr =>
    rw [traverseInputSql_and left right] at matched
    match first : traverseInputSql rules l, second : traverseInputSql rules r with
    | none, _ => simp [first] at matched
    | some a, none => simp [first, second] at matched
    | some true, some b =>
      obtain ⟨i, mem, found⟩ := ihl first holds.1
      exact ⟨i, mem_append_left _ mem, found⟩
    | some false, some b =>
      have : b = true := by simpa [first, second] using matched
      obtain ⟨i, mem, found⟩ := ihr (by rw [second, this]) holds.2
      exact ⟨i, mem_append_right _ mem, found⟩
  | @or l r left right ihl ihr =>
    rw [traverseInputSql_or left right] at matched
    match first : traverseInputSql rules l, second : traverseInputSql rules r with
    | none, _ => simp [first] at matched
    | some a, none => simp [first, second] at matched
    | some a, some b =>
      obtain ⟨rfl, rfl⟩ : a = true ∧ b = true := by simpa [first, second] using matched
      rcases holds with holds | holds
      · obtain ⟨i, mem, found⟩ := ihl first holds
        exact ⟨i, mem_append_left _ mem, found⟩
      · obtain ⟨i, mem, found⟩ := ihr second holds
        exact ⟨i, mem_append_right _ mem, found⟩

end Tree

section Load
variable {F : Type} {Literal : Expr F → Prop} {e c : Expr F}

/-- What a loaded rule is made of: conditions, and the `OR`s below its `AND`s. -/
inductive IsRulePart (Literal : Expr F → Prop) : Expr F → Prop
  | condition {c : Expr F} : IsCondition Literal c → IsRulePart Literal c
  | or {l r : Expr F} : IsTree Literal l → IsRulePart Literal (.binary .or l r)

theorem isRulePart_of_mem_traverseSubAst (tree : IsTree Literal e) :
    ∀ c ∈ traverseSubAst e, IsRulePart Literal c := by
  induction tree with
  | condition condition =>
    intro c mem
    obtain ⟨op, column, literal, kind, plain⟩ := condition
    have : op ≠ .and := by
      rcases kind with (rfl | rfl | rfl | rfl | rfl | rfl) | rfl | rfl | rfl <;> decide
    have : c = .binary op (.columnRef column) literal := by
      simpa [traverseSubAst, this] using mem
    rw [this]
    exact .condition ⟨op, column, literal, kind, plain⟩
  | and left right ihl ihr =>
    intro c mem
    rcases mem_append.mp mem with mem | mem
    · exact ihl c mem
    · exact ihr c mem
  | or left right =>
    intro c mem
    obtain rfl := mem_singleton.mp mem
    exact .or left

theorem isRulePart_of_mem_traverseAst (tree : IsTree Literal e) :
    ∀ c ∈ (traverseAst e).flatten, IsRulePart Literal c := by
  induction tree with
  | condition condition =>
    intro c mem
    refine isRulePart_of_mem_traverseSubAst (.condition condition) c ?_
    obtain ⟨op, column, literal, kind, plain⟩ := condition
    have : op ≠ .or := by
      rcases kind with (rfl | rfl | rfl | rfl | rfl | rfl) | rfl | rfl | rfl <;> decide
    simpa [traverseAst, this] using mem
  | and left right =>
    intro c mem
    exact isRulePart_of_mem_traverseSubAst (.and left right) c (by simpa [traverseAst] using mem)
  | or left right ihl ihr =>
    intro c mem
    rw [traverseAst, flatten_append] at mem
    rcases mem_append.mp mem with mem | mem
    · exact ihl c mem
    · exact ihr c mem

variable [LinearOrder F] {i : OperatorType} {column : List UInt8} {x : Expr F}

/-- An ordering that meets an `OR` below an `AND` reads the name of an operator, which is
`NULL`; the other comparisons do not get that far. -/
theorem doMatchExpr_or {l r : Expr F} (left : IsTree Literal l) :
    doMatchExpr (.binary i (.columnRef column) x) (.binary .or l r) =
      if i = .or ∨ i.IsOrder then none else some false := by
  have unnamed : l.getName = none := by
    cases left with
    | condition condition =>
      obtain ⟨op, d, y, -, -⟩ := condition
      rfl
    | and | or => rfl
  split_ifs with reads
  · simp [doMatchExpr, isOperator, opType, expr, imp_iff_not_or, reads, unnamed]
  · simp only [not_or] at reads
    simp [doMatchExpr, isOperator, opType, reads]

/-- `=` and `!=` can be compared with every part of a rule. -/
theorem doMatchExpr_ne_none (equality : i = .equals ∨ i = .notEquals)
    (part : IsRulePart Literal c) : doMatchExpr (.binary i (.columnRef column) x) c ≠ none := by
  cases part with
  | condition condition =>
    obtain ⟨op, d, y, -, -⟩ := condition
    rw [doMatchExpr_condition]
    simp
  | or left =>
    rw [doMatchExpr_or left]
    rcases equality with rfl | rfl <;> simp [OperatorType.IsOrder]

end Load

section Route
variable {F : Type} [LinearOrder F]

/-- The row is hot: it satisfies all conditions of one of the rules. -/
def Hot (other : Expr F → Row F → Prop) (exprRules : List (List (Expr F))) (row : Row F) : Prop :=
  ∃ rule ∈ exprRules, ∀ c ∈ rule, c.Holds other row

/-- The statement names one of the three stores as its schema. -/
def NamesStore (statement : SQLStatement F) : Prop :=
  getSchema statement = some specificL1Schema ∨ getSchema statement = some specificL2Schema ∨
    getSchema statement = some specificL3Schema

/-- No statement on conditions over integers and strings that goes to the hot store touches
a row that is not hot. -/
def RoutesSafely (other : Expr F → Row F → Prop) (exprRules : List (List (Expr F))) : Prop :=
  ∀ (statement : SQLStatement F) (where_ : Expr F), getExpr statement = some where_ →
    ¬ NamesStore statement → IsTree IsIntOrString where_ →
    reMatchSql [statement] exprRules = some 0 →
    ∀ row, where_.Holds other row → Hot other exprRules row

/-- What the rules have to be like for `RoutesSafely`: the rows of a condition that can be
matched on its own are hot. A `!=` is matched by every `!=` with another literal, so all
rows with a value in its column have to be. Orderings are only matched on integers, and
only before the first `OR` below an `AND`. -/
structure Covers (other : Expr F → Row F → Prop) (exprRules : List (List (Expr F))) : Prop where
  equals : ∀ column literal, IsIntOrString literal →
    .binary .equals (.columnRef column) literal ∈ exprRules.flatten →
    ∀ row : Row F, (row (foldCase column)).Meets .equals literal → Hot other exprRules row
  order : ∀ op column n, op.IsOrder →
    .binary op (.columnRef column) (.literalInt n) ∈
      exprRules.flatten.takeWhile (·.opType ≠ .or) →
    ∀ row : Row F, (row (foldCase column)).Meets op (.literalInt n) → Hot other exprRules row
  notEquals : ∀ column literal, IsIntOrString literal →
    .binary .notEquals (.columnRef column) literal ∈ exprRules.flatten →
    ∀ row : Row F, Comparable (row (foldCase column)) literal → Hot other exprRules row

variable {other : Expr F → Row F → Prop} {exprRules : List (List (Expr F))}
  {statement : SQLStatement F} {e : Expr F}

theorem reMatchSql_eq_zero (where_ : getExpr statement = some e) (plain : ¬ NamesStore statement) :
    reMatchSql [statement] exprRules = some 0 ↔
      (getSchema statement).isSome ∧ exprRules.anyM (traverseInputSql · e) = some true := by
  simp only [NamesStore, not_or] at plain
  match schema : getSchema statement with
  | none => simp [reMatchSql, schema]
  | some name =>
    simp only [schema, Option.some.injEq] at plain
    have insert : isInsertType statement = false := by
      cases statement <;> first | rfl | cases where_
    match result : exprRules.anyM (traverseInputSql · e) with
    | none | some true | some false =>
      simp [reMatchSql, schema, plain, insert, where_, result]

variable {row : Row F} {x : Expr F}

/-- One comparison of a matched statement already matches the rules. -/
theorem exists_comparison_of_match (tree : IsTree IsIntOrString e)
    (matched : exprRules.anyM (traverseInputSql · e) = some true) (holds : e.Holds other row) :
    ∃ i ∈ comparisons e, i.Holds other row ∧
      exprRules.flatten.anyM (doMatchExpr i) = some true := by
  obtain ⟨before, rule, after, rfl, refused, found⟩ := anyM_eq_some_true_iff.mp matched
  obtain ⟨i, mem, iHolds, iFound⟩ := exists_comparison_of_traverse tree found holds
  refine ⟨i, mem, iHolds, ?_⟩
  rw [anyM_flatten, append_cons]
  refine anyM_append_eq_some_true (anyM_eq_some_true (c := rule) (by simp) ?_ iFound)
  intro r rMem
  rcases mem_append.mp rMem with rMem | rMem
  · refine anyM_ne_none_of_traverse tree ?_ i mem
    rw [refused r rMem]
    simp
  · obtain rfl := mem_singleton.mp rMem
    rw [iFound]
    simp

variable {column : List UInt8}

/-- Rules that cover themselves: the rows of a comparison that matches one of them are hot. -/
theorem Covers.hot {rules : Expr F} {Literal : Expr F → Prop} {x : Expr F}
    (covers : Covers other (traverseAst rules)) (tree : IsTree Literal rules)
    (plain : IsIntOrString x) (meets : (row (foldCase column)).Meets i x)
    (found : (traverseAst rules).flatten.anyM (doMatchExpr (.binary i (.columnRef column) x)) =
      some true) :
    Hot other (traverseAst rules) row := by
  obtain ⟨before, c, after, split, refused, matched⟩ := anyM_eq_some_true_iff.mp found
  have parts := isRulePart_of_mem_traverseAst tree
  have mem : c ∈ (traverseAst rules).flatten := by simp [split]
  cases parts c mem with
  | condition condition =>
    obtain ⟨r, d, y, -, -⟩ := condition
    rcases holds_of_doMatchExpr plain matched meets with
      ⟨rfl, yPlain, yMeets⟩ | ⟨order, rOrder, ⟨n, rfl⟩, yMeets⟩ | ⟨rfl, yPlain, comparable⟩
    · exact covers.equals d y yPlain mem row yMeets
    · refine covers.order r d n rOrder ?_ row yMeets
      -- an `OR` before the condition would have ended the search
      have simple : ∀ b ∈ before, b.opType ≠ .or := by
        intro b bMem isOr
        cases parts b (by simp [split, bMem]) with
        | condition condition =>
          obtain ⟨op, d', y', kind, -⟩ := condition
          rcases kind with (rfl | rfl | rfl | rfl | rfl | rfl) | rfl | rfl | rfl <;> cases isOr
        | or left =>
          have := refused _ bMem
          rw [doMatchExpr_or left, if_pos (.inr order)] at this
          cases this
      have simple' : r ≠ .or := by
        rcases rOrder with rfl | rfl | rfl | rfl <;> decide
      rw [split, takeWhile_append_of_pos (by simpa using simple)]
      simp [opType, simple']
    · exact covers.notEquals d y yPlain mem row comparable
  | or left =>
    rw [doMatchExpr_or left] at matched
    split_ifs at matched
    cases matched

/-- A statement with one comparison is matched if its comparison is. -/
theorem reMatchSql_delete (comparison : i.IsComparison) (plain : IsIntOrString x)
    (found : exprRules.flatten.anyM (doMatchExpr (.binary i (.columnRef column) x)) = some true) :
    reMatchSql [.delete none (some (.binary i (.columnRef column) x))] exprRules = some 0 := by
  have condition : IsCondition IsIntOrString (.binary i (.columnRef column) x) :=
    ⟨i, column, x, .inl comparison, plain⟩
  have noStore : ¬ NamesStore (.delete none (some (.binary i (.columnRef column) x))) := by
    simp [NamesStore, getSchema, specificL1Schema, specificL2Schema, specificL3Schema]
  rw [reMatchSql_eq_zero rfl noStore]
  refine ⟨rfl, ?_⟩
  have single : ∀ rule : List (Expr F),
      traverseInputSql rule (.binary i (.columnRef column) x) =
        rule.anyM (doMatchExpr (.binary i (.columnRef column) x)) := by
    intro rule
    rw [traverseInputSql_condition condition]
    exact if_pos comparison
  simpa only [single, anyM_flatten] using found

/-- So the rows of such a statement have to be hot. -/
theorem RoutesSafely.hot (safe : RoutesSafely other exprRules)
    (comparison : i.IsComparison) (plain : IsIntOrString x)
    (found : exprRules.flatten.anyM (doMatchExpr (.binary i (.columnRef column) x)) = some true)
    (meets : (row (foldCase column)).Meets i x) : Hot other exprRules row := by
  refine safe _ _ rfl ?_ (.condition ⟨i, column, x, .inl comparison, plain⟩)
    (reMatchSql_delete comparison plain found) row ((holds_comparison comparison).mpr meets)
  simp [NamesStore, getSchema, specificL1Schema, specificL2Schema, specificL3Schema]

/-- For every value there is a literal that both the value and a given literal differ from. -/
theorem exists_literal_ne {v : Value F} (comparable : Comparable v x) :
    ∃ y : Expr F, IsIntOrString y ∧ cmpExprValue y x .notEquals .notEquals = true ∧
      v.Meets .notEquals y := by
  match v, x, comparable with
  | .int m, .literalInt n, _ =>
    obtain ⟨k, hn, hm⟩ : ∃ k : Int, k ≠ n ∧ m ≠ k := by
      by_cases zero : (0 : Int) ≠ n ∧ m ≠ 0
      · exact ⟨0, zero⟩
      · by_cases one : (1 : Int) ≠ n ∧ m ≠ 1
        · exact ⟨1, one⟩
        · exact ⟨2, by omega, by omega⟩
    exact ⟨.literalInt k, .int k, by simpa [cmpExprValue, cmpNumber] using hn, hm⟩
  | .string t, .literalString s, _ =>
    -- one of the empty string, `a` and `b`
    obtain ⟨k, hs, ht⟩ : ∃ k : List UInt8, foldCase k ≠ foldCase s ∧ foldCase t ≠ foldCase k := by
      by_cases empty : foldCase [] ≠ foldCase s ∧ foldCase t ≠ foldCase []
      · exact ⟨[], empty⟩
      · by_cases a : foldCase [97] ≠ foldCase s ∧ foldCase t ≠ foldCase [97]
        · exact ⟨[97], a⟩
        · have distinct : foldCase [] ≠ foldCase [97] ∧ foldCase [] ≠ foldCase [98] ∧
              foldCase [97] ≠ foldCase [98] := by decide
          exact ⟨[98], by grind, by grind⟩
    refine ⟨.literalString k, .string k, ?_, ht⟩
    simpa [cmpExprValue, cmpString, OperatorType.IsOrder] using hs

/-- Routing is safe for exactly the rule sets whose conditions all cover themselves. -/
theorem routesSafely_iff (other : Expr F → Row F → Prop) {rules : Expr F}
    {Literal : Expr F → Prop} (tree : IsTree Literal rules) :
    RoutesSafely other (traverseAst rules) ↔ Covers other (traverseAst rules) := by
  have parts := isRulePart_of_mem_traverseAst tree
  constructor
  · intro safe
    refine ⟨fun column literal plain mem row meets => ?_, fun op column n order mem row meets => ?_,
      fun column literal plain mem row comparable => ?_⟩
    · refine safe.hot (.inl rfl) plain (anyM_eq_some_true mem ?_ ?_) meets
      · exact fun c cMem => doMatchExpr_ne_none (.inl rfl) (parts c cMem)
      · rw [doMatchExpr_condition]
        cases plain <;> simp [cmpExprValue, cmpNumber, cmpString, OperatorType.IsOrder]
    · refine safe.hot (.inr (.inr order)) (.int n) ?_ meets
      rw [← takeWhile_append_dropWhile (l := (traverseAst rules).flatten) (p := (·.opType ≠ .or))]
      refine anyM_append_eq_some_true (anyM_eq_some_true mem ?_ ?_)
      · intro c cMem
        cases parts c (takeWhile_subset _ cMem) with
        | condition condition =>
          obtain ⟨r, d, y, -, -⟩ := condition
          rw [doMatchExpr_condition]
          simp
        | or left =>
          have := all_eq_true.mp all_takeWhile _ cMem
          simp [opType] at this
      · rw [doMatchExpr_condition]
        rcases order with rfl | rfl | rfl | rfl <;>
          simp [cmpExprValue, cmpNumber, OperatorType.IsOrder]
    · obtain ⟨y, yPlain, unequal, yMeets⟩ := exists_literal_ne comparable
      refine safe.hot (.inr (.inl rfl)) yPlain (anyM_eq_some_true mem ?_ ?_) yMeets
      · exact fun c cMem => doMatchExpr_ne_none (.inr rfl) (parts c cMem)
      · rw [doMatchExpr_condition, unequal]
        simp
  · intro covers statement where_ isWhere noStore whereTree matched row holds
    obtain ⟨-, matched⟩ := (reMatchSql_eq_zero isWhere noStore).mp matched
    obtain ⟨i, mem, iHolds, found⟩ := exists_comparison_of_match whereTree matched holds
    obtain ⟨op, column, literal, rfl, comparison, plain⟩ := comparison_of_mem whereTree mem
    exact covers.hot tree plain ((holds_comparison comparison).mp iHolds) found

/-- One rule with one comparison: every statement that is routed to the hot store stays
inside `a < 10`. -/
theorem routesSafely_one_condition :
    RoutesSafely (F := Int) (fun _ _ => False)
      (traverseAst (.binary .less (.columnRef [97]) (.literalInt 10))) := by
  have tree : IsTree IsIntOrString
      (.binary .less (.columnRef [97]) (.literalInt 10) : Expr Int) :=
    .condition ⟨.less, [97], .literalInt 10, .inl (by decide), .int 10⟩
  refine (routesSafely_iff _ tree).mpr ⟨?_, ?_, ?_⟩
  · intro column literal plain mem
    simp [traverseAst, traverseSubAst] at mem
  · intro op column n order mem row meets
    obtain ⟨rfl, rfl, rfl⟩ : op = .less ∧ column = [97] ∧ n = 10 := by
      simpa [traverseAst, traverseSubAst, opType] using mem
    refine ⟨_, mem_singleton.mpr rfl, ?_⟩
    intro c cMem
    obtain rfl := mem_singleton.mp cMem
    exact (holds_comparison (by decide)).mpr meets
  · intro column literal plain mem
    simp [traverseAst, traverseSubAst] at mem

/-- With the rule `a = 1 AND b = 2` the statement `DELETE ... WHERE a = 1` goes to the hot
store, and so it does with the rule `a != 1` for `WHERE a != 2`; the rows `(1, 3)` and
`(1, 2)` satisfy the statements and not the rules. -/
theorem partial_match_routed :
    let a : Expr Int := .columnRef [97]
    let b : Expr Int := .columnRef [98]
    let both : Expr Int := .binary .and (.binary .equals a (.literalInt 1))
      (.binary .equals b (.literalInt 2))
    let unequal : Expr Int := .binary .notEquals a (.literalInt 1)
    let one : Expr Int := .binary .equals a (.literalInt 1)
    let notTwo : Expr Int := .binary .notEquals a (.literalInt 2)
    let row (n : Int) : Row Int := fun column => if column = [97] then .int 1 else .int n
    (reMatchSql [.delete none (some one)] (traverseAst both) = some 0 ∧
      one.Holds (fun _ _ => False) (row 3) ∧ ¬ Hot (fun _ _ => False) (traverseAst both) (row 3)) ∧
    (reMatchSql [.delete none (some notTwo)] (traverseAst unequal) = some 0 ∧
      notTwo.Holds (fun _ _ => False) (row 2) ∧
      ¬ Hot (fun _ _ => False) (traverseAst unequal) (row 2)) := by
  refine ⟨⟨by decide, ?_, ?_⟩, by decide, ?_, ?_⟩
  all_goals
    simp [Hot, traverseAst, traverseSubAst, Holds, Value.Meets, OperatorType.Compare,
      OperatorType.IsComparison, foldCase, lower]

end Route

end Dtc.Rule
