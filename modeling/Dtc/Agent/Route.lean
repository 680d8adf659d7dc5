import Dtc.Agent.Message
import Dtc.Rule.Sound

/-!
# Where a query goes

The layer of a query is what the rule engine answers to its text in capitals.
-/

namespace Dtc.Agent

open Rule Sql

/-- The rule engine: the key of the table, the rules once they are loaded, the parser, whether the
cache takes a statement, and whether a text has a value for the key. -/
structure Engine (F : Type) where
  dtcKey : List UInt8
  exprRules : Option (List (List (Expr F)))
  parseSql : List UInt8 → List (SQLStatement F)
  isCacheSql : List (SQLStatement F) → Bool
  hasKey : List UInt8 → Bool

def text (s : String) : List UInt8 := s.toUTF8.toList

namespace Engine
variable {F : Type} [LinearOrder F] (g : Engine F) (sql dbname : List UInt8)

/-- `rule_sql_match` -/
def ruleSqlMatch : Option Int :=
  if g.dtcKey = [] then some (-1)
  else if sql ∈ ["show databases", "SHOW DATABASES", "select database()",
      "SELECT DATABASE()"].map text then some 3
  else if sql ∈ ["show tables", "SHOW TABLES"].map text then some (if dbname = [] then -6 else 3)
  else if dbname ≠ [] ∧ dbname ≠ specificL1Schema ∧ dbname ≠ specificL2Schema then some 3
  else
    match g.exprRules with
    | none => some (-5)
    | some exprRules =>
      if text "INSERT INTO" <:+: sql ∨ text "insert into" <:+: sql then some 1
      else if g.parseSql sql = [] then some (-1)
      else (reMatchSql (g.parseSql sql) exprRules).map fun ret =>
        if ret = 0 then if g.isCacheSql (g.parseSql sql) then 1 else 2 else 3

/-- `string_upper`, and what is left of it as a C string. -/
def stringUpper : List UInt8 :=
  (sql.map fun b => if 97 ≤ b ∧ b ≤ 122 then b - 32 else b).takeWhile (· ≠ 0)

/-- `my_get_route_key`; the codes from -2 to -5 of a text without a key are one here. -/
def myGetRouteKey : Option Int :=
  if sql = [] then some (-1)
  else (g.ruleSqlMatch (stringUpper sql) dbname).map fun layer =>
    if layer = 1 ∧ g.hasKey sql = false then -2 else layer

/-- The environment with this engine. -/
def env (fragment : UInt8 → List UInt8 → Bool) (msgId : Nat → Nat) : Env where
  route dbname sql := do
    let layer ← g.myGetRouteKey sql dbname
    if 1 ≤ layer ∧ layer ≤ 3 then some (.ofNat layer.toNat) else none
  fragment := fragment
  msgId := msgId

variable {g sql dbname} {fragment : UInt8 → List UInt8 → Bool} {msgId : Nat → Nat}

/-- The hot store is the answer for one statement that the rules match. -/
theorem ruleSqlMatch_hot (hot : g.ruleSqlMatch sql dbname = some 2) :
    ∃ exprRules statement, g.exprRules = some exprRules ∧ g.parseSql sql = [statement] ∧
      reMatchSql [statement] exprRules = some 0 := by
  unfold ruleSqlMatch at hot
  cases rules : g.exprRules with
  | none =>
    rw [rules] at hot
    split_ifs at hot <;> cases hot
  | some exprRules =>
    rw [rules] at hot
    dsimp only at hot
    split_ifs at hot with _ _ _ _ _ _ empty
    any_goals cases hot
    all_goals
      obtain ⟨ret, matched, layer⟩ := Option.map_eq_some_iff.mp hot
      obtain rfl : ret = 0 := by
        by_contra failed
        rw [if_neg failed] at layer
        cases layer
      obtain ⟨statement, rest, parsed⟩ := List.exists_cons_of_ne_nil empty
      rw [parsed] at matched ⊢
      cases rest with
      | nil => exact ⟨exprRules, statement, rfl, rfl, matched⟩
      | cons =>
        rw [reMatchSql, if_pos (by simp)] at matched
        cases matched

theorem route_hot (routed : (g.env fragment msgId).route dbname sql = some 2) :
    g.ruleSqlMatch (stringUpper sql) dbname = some 2 := by
  obtain ⟨layer, key, range⟩ := Option.bind_eq_some_iff.mp routed
  split_ifs at range with within
  obtain rfl : layer = 2 := by
    obtain rfl | rfl | rfl : layer = 1 ∨ layer = 2 ∨ layer = 3 := by omega
    · cases range
    · rfl
    · cases range
  unfold myGetRouteKey at key
  split_ifs at key
  · simp at key
  obtain ⟨layer, answered, same⟩ := Option.map_eq_some_iff.mp key
  split_ifs at same
  exact same ▸ answered

/-- A query that the agent forwards to the hot store is one statement that the rules match. -/
theorem forwarded_hot {app app' : App} {payload database : List UInt8}
    (forwarded : processPacket (g.env fragment msgId) app payload =
      some (app', .forwarded 2 database)) :
    ∃ exprRules statement, g.exprRules = some exprRules ∧
      g.parseSql (stringUpper (commandText payload.tail)) = [statement] ∧
      reMatchSql [statement] exprRules = some 0 := by
  suffices hot : g.ruleSqlMatch (stringUpper (commandText payload.tail)) app.database = some 2 from
    ruleSqlMatch_hot hot
  unfold processPacket at forwarded
  split at forwarded
  any_goals cases forwarded
  obtain ⟨⟨app₁, command, layer⟩, got, verdict⟩ := Option.map_eq_some_iff.mp forwarded
  dsimp only at verdict
  split_ifs at verdict
  any_goals cases verdict
  unfold myGetCommand at got
  split at got
  · cases got
  · dsimp only at got
    split at got
    · split_ifs at got <;> simp at got
    · obtain ⟨layer, routed, same⟩ := Option.map_eq_some_iff.mp got
      cases same
      exact route_hot routed
    · simp at got

end Engine

end Dtc.Agent
