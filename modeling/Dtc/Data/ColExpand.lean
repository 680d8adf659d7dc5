import Dtc.Library.CString
import Dtc.Library.Machine

/-!
# Column expansion

The texts of the current and of the pending table definition are kept in the shared memory, in
two slots that change their roles with every expansion. `initialization` and a forced `attach`
write a text with its zero byte; `expand` copies the bytes it is given. `attach` reads a slot as a
string.

What is to be remembered is a `History`: the text of the last completed expansion, and the text of
the one that was started. It is read back after a restart if no start leaves the remains of an
older text behind the new one.
-/

namespace Dtc.Data

open Library Memory

/-- `COL_EXPAND_BUFF_SIZE`. -/
def colExpandBuffSize : Nat := 1024 * 1024

/-- `COL_EXPAND_BUFF_NUM`. -/
def colExpandBuffNum : Nat := 2

/-- `COL_EXPAND_T`: `mem` starts with the two slots of `tableBuff` and goes on with the `behind`
bytes of the shared memory behind them. -/
structure DTCColExpand where
  expanding : Bool
  curTable : Nat
  mem : Nat → UInt8
  behind : Nat

namespace DTCColExpand
variable (c : DTCColExpand)

/-- The start of `tableBuff[i % COL_EXPAND_BUFF_NUM]`. -/
def slot (i : Nat) : Nat := i % colExpandBuffNum * colExpandBuffSize

/-- A slot read as a string; `none` is a read behind the shared memory. -/
def tableBuff (i : Nat) : Option (List UInt8) :=
  cString c.mem (colExpandBuffNum * colExpandBuffSize + c.behind - slot i) (slot i)

/-- `initialization` with the text of the table file, in shared memory that ends with `rest`. -/
def initialization (rest file : List UInt8) : Option DTCColExpand :=
  let zeroed := store (fun _ => 0) (colExpandBuffNum * colExpandBuffSize) rest
  if colExpandBuffSize < file.length then none
  else some ⟨false, 0, store zeroed (slot 0) (file ++ [0]), rest.length⟩

/-- `try_expand`. A byte is never above 255. -/
def tryExpand (len : Nat) : Bool :=
  !(c.expanding || colExpandBuffSize < len || 255 < c.curTable)

/-- `expand`. -/
def expand (table : List UInt8) : DTCColExpand :=
  { c with expanding := true, mem := store c.mem (slot (c.curTable + 1)) table }

/-- `expand_done`. -/
def expandDone : DTCColExpand :=
  { c with expanding := false, curTable := (c.curTable + 1) % 2 ^ 8 }

/-- `attach`: the texts that become the current and the pending table definition. `builds` says
of which texts `load_buffered_table` makes a definition. -/
def attach (builds : List UInt8 → Bool) (file : List UInt8) (forceFlag : Bool) :
    Option (List UInt8 × Option (List UInt8)) × DTCColExpand :=
  if forceFlag then
    if colExpandBuffSize < file.length ∨ c.expanding then (none, c)
    else (some (file, none), { c with mem := store c.mem (slot c.curTable) (file ++ [0]) })
  else
    match c.tableBuff c.curTable with
    | none => (none, c)
    | some t =>
      if builds t = false then (none, c)
      else if c.expanding then
        match c.tableBuff (c.curTable + 1) with
        | none => (none, c)
        | some tt => if builds tt = false then (none, c) else (some (t, some tt), c)
      else (some (t, none), c)

end DTCColExpand

/-- An expansion is started with a value of a request, or completed; the server is started again
with a table file. A value of a request has a zero byte behind its end. -/
inductive ExpandEvent
  | start (table : List UInt8)
  | done
  | restart (file : List UInt8) (forceFlag : Bool)

/-- The text in a value of a request. -/
def tableText (table : List UInt8) : List UInt8 := table.takeWhile (· ≠ 0)

section
variable (builds : List UInt8 → Bool)

/-- One event, as `buffer_column_expand`, `buffer_column_expand_done` and the start of the server
handle it. -/
def DTCColExpand.step (c : DTCColExpand) : ExpandEvent → DTCColExpand
  | .start table =>
    if builds (tableText table) ∧ c.tryExpand table.length then c.expand table else c
  | .done => if c.expanding then c.expandDone else c
  | .restart file forceFlag => (c.attach builds file forceFlag).2

/-! ### What is to be remembered -/

/-- The text of the last completed expansion, and that of one that was only started. -/
structure History where
  current : List UInt8
  pending : Option (List UInt8)

def History.step (h : History) : ExpandEvent → History
  | .start table =>
    if builds (tableText table) ∧ h.pending = none ∧ table.length ≤ colExpandBuffSize then
      { h with pending := some (tableText table) }
    else h
  | .done =>
    match h.pending with
    | some text => ⟨text, none⟩
    | none => h
  | .restart file forceFlag =>
    if forceFlag ∧ h.pending = none ∧ file.length ≤ colExpandBuffSize then { h with current := file }
    else h

/-- The code and the history side by side. -/
def expandStep (s : DTCColExpand × History) (event : ExpandEvent) : Unit × DTCColExpand × History :=
  ((), s.1.step builds event, s.2.step builds event)

/-- A restart gives the history back, whatever the table file is. -/
def Remembers (s : DTCColExpand × History) : Prop :=
  ∀ file, (s.1.attach builds file false).1 = some (s.2.current, s.2.pending)

/-- A table file is a text that gives a definition, or the server does not start. -/
def ExpandEvent.Legal : ExpandEvent → Prop
  | .restart file _ => 0 ∉ file ∧ builds file
  | _ => True

/-- The text of a new expansion ends with a zero byte of its own or, within its slot, at one that
is there already, and the current text ends within its slot. -/
def Terminated (s : DTCColExpand × History) : ExpandEvent → Prop
  | .start table =>
    builds (tableText table) ∧ s.1.tryExpand table.length →
      s.2.current.length < colExpandBuffSize ∧
        (0 ∈ table ∨ table.length < colExpandBuffSize ∧
          s.1.mem (DTCColExpand.slot (s.1.curTable + 1) + table.length) = 0)
  | _ => True

/-- The two slots hold the texts of the history. -/
structure Holding (c : DTCColExpand) (h : History) : Prop where
  byte : c.curTable < 2 ^ 8
  behind : 1 ≤ c.behind
  current : StringAt c.mem (DTCColExpand.slot c.curTable) h.current
  le : h.current.length ≤ colExpandBuffSize
  valid : builds h.current = true
  expanding : c.expanding = h.pending.isSome
  pending : ∀ text ∈ h.pending, StringAt c.mem (DTCColExpand.slot (c.curTable + 1)) text ∧
    text.length < colExpandBuffSize ∧ builds text = true

end

section Proofs
variable {builds : List UInt8 → Bool} {c : DTCColExpand} {h : History}

open DTCColExpand

theorem slot_cases (i : Nat) :
    slot i = 0 ∧ slot (i + 1) = colExpandBuffSize ∨
      slot i = colExpandBuffSize ∧ slot (i + 1) = 0 := by
  unfold slot colExpandBuffNum
  generalize colExpandBuffSize = size
  rcases Nat.mod_two_eq_zero_or_one i with even | odd
  · have odd : (i + 1) % 2 = 1 := by omega
    exact .inl ⟨by rw [even, Nat.zero_mul], by rw [odd, Nat.one_mul]⟩
  · have even : (i + 1) % 2 = 0 := by omega
    exact .inr ⟨by rw [odd, Nat.one_mul], by rw [even, Nat.zero_mul]⟩

/-- A byte that overflows keeps its slot. -/
theorem slot_mod (i : Nat) : slot (i % 2 ^ 8) = slot i := by
  unfold slot colExpandBuffNum
  rw [Nat.mod_mod_of_dvd i (by decide)]

theorem tableBuff_eq {i : Nat} {text : List UInt8} (behind : 1 ≤ c.behind)
    (string : StringAt c.mem (slot i) text) (le : text.length ≤ colExpandBuffSize) :
    c.tableBuff i = some text := by
  refine string.cString_eq ?_
  unfold colExpandBuffNum
  rcases slot_cases i with ⟨first, -⟩ | ⟨second, -⟩
  · omega
  · omega

/-- Without the flag, `attach` only reads. -/
theorem attach_keeps (file : List UInt8) : (c.attach builds file false).2 = c := by
  unfold attach
  rw [if_neg (by simp)]
  generalize c.tableBuff c.curTable = current
  generalize c.tableBuff (c.curTable + 1) = pending
  cases current with
  | none => rfl
  | some t =>
    dsimp only
    split_ifs
    · rfl
    · cases pending with
      | none => rfl
      | some tt =>
        dsimp only
        split_ifs <;> rfl
    · rfl

section
variable (holding : Holding builds c h)

include holding

/-- What the slots hold is read back. -/
theorem Holding.remembers : Remembers builds (c, h) := by
  intro file
  have current := tableBuff_eq holding.behind holding.current holding.le
  have pending := fun text started =>
    let ⟨string, lt, ok⟩ := holding.pending text started
    And.intro (tableBuff_eq holding.behind string lt.le) ok
  have expanding := holding.expanding
  unfold attach
  rw [if_neg (by simp)]
  -- The slots are large: they are not to be evaluated.
  generalize c.tableBuff c.curTable = first at current ⊢
  generalize c.tableBuff (c.curTable + 1) = second at pending ⊢
  subst current
  dsimp only
  rw [if_neg (by simp [holding.valid])]
  cases started : h.pending with
  | none =>
    rw [started] at expanding
    rw [if_neg (by simp [expanding])]
  | some text =>
    obtain ⟨rfl, ok⟩ := pending text started
    rw [started] at expanding
    rw [if_pos (by simp [expanding])]
    dsimp only
    rw [if_neg (by simp [ok])]

theorem Holding.start {table : List UInt8}
    (ok : builds (tableText table) ∧ c.tryExpand table.length)
    (ends : h.current.length < colExpandBuffSize ∧ (0 ∈ table ∨ table.length < colExpandBuffSize ∧
      c.mem (slot (c.curTable + 1) + table.length) = 0)) :
    Holding builds (c.expand table) { h with pending := some (tableText table) } := by
  obtain ⟨short, ends⟩ := ends
  have fits : table.length ≤ colExpandBuffSize := by
    have accepted := ok.2
    simp only [tryExpand, Bool.not_eq_true', Bool.or_eq_false_iff,
      decide_eq_false_iff_not, not_lt] at accepted
    exact accepted.1.2
  have shorter : (tableText table).length < colExpandBuffSize := by
    have le : (tableText table).length ≤ table.length := (List.takeWhile_prefix _).length_le
    rcases ends with among | ⟨lt, -⟩
    · have ne : tableText table ≠ table := fun same => by
        have nonzero := (stringAt_store_takeWhile (m := fun _ => 0) (a := 0) (.inl among)).nonzero
        exact nonzero (by rw [show table.takeWhile (· ≠ 0) = table from same]; exact among)
      have lt : (tableText table).length < table.length :=
        lt_of_le_of_ne le fun same => ne ((List.takeWhile_prefix _).eq_of_length same)
      omega
    · omega
  refine ⟨holding.byte, holding.behind, ?_, holding.le, holding.valid, rfl, ?_⟩
  · refine holding.current.store_apart ?_
    show _ ∨ slot (c.curTable + 1) + table.length ≤ slot c.curTable
    rcases slot_cases c.curTable with ⟨first, second⟩ | ⟨first, second⟩
    · omega
    · omega
  · rintro text ⟨rfl⟩
    refine ⟨stringAt_store_takeWhile (ends.imp_right And.right), shorter, ok.1⟩

theorem Holding.done {text : List UInt8} (started : h.pending = some text) :
    Holding builds c.expandDone ⟨text, none⟩ := by
  obtain ⟨string, lt, ok⟩ := holding.pending text started
  refine ⟨Nat.mod_lt _ (by decide), holding.behind, ?_, lt.le, ok, rfl, nofun⟩
  show StringAt c.mem (slot ((c.curTable + 1) % 2 ^ 8)) text
  rw [slot_mod]
  exact string

theorem Holding.force {file : List UInt8} (legal : 0 ∉ file ∧ builds file)
    (le : file.length ≤ colExpandBuffSize) (none : h.pending = none) :
    Holding builds { c with mem := store c.mem (slot c.curTable) (file ++ [0]) }
      { h with current := file } := by
  refine ⟨holding.byte, holding.behind, stringAt_store legal.1, le, legal.2, holding.expanding, ?_⟩
  rintro text started
  rw [show h.pending = Option.none from none] at started
  exact absurd started (by simp)

/-- One event, handled by the code and written into the history. -/
theorem Holding.step {event : ExpandEvent} (legal : event.Legal builds)
    (terminated : Terminated builds (c, h) event) :
    Holding builds (c.step builds event) (h.step builds event) := by
  have expanding := holding.expanding
  cases event with
  | start table =>
    have same : c.tryExpand table.length ↔
        h.pending = none ∧ table.length ≤ colExpandBuffSize := by
      have byte := holding.byte
      cases started : h.pending with
      | none =>
        simp [tryExpand, expanding, started]
        omega
      | some text => simp [tryExpand, expanding, started]
    unfold DTCColExpand.step History.step
    dsimp only
    rw [if_congr (and_congr_right' same.symm) rfl rfl]
    by_cases ok : builds (tableText table) ∧ c.tryExpand table.length
    · rw [if_pos ok, if_pos ok]
      exact holding.start ok (terminated ok)
    · rw [if_neg ok, if_neg ok]
      exact holding
  | done =>
    unfold DTCColExpand.step History.step
    cases started : h.pending with
    | none =>
      rw [if_neg (by simp [expanding, started])]
      exact holding
    | some text =>
      rw [if_pos (by simp [expanding, started])]
      exact holding.done started
  | restart file forceFlag =>
    unfold DTCColExpand.step History.step
    dsimp only
    cases forceFlag with
    | false =>
      rw [attach_keeps, if_neg (by simp)]
      exact holding
    | true =>
      rw [attach, if_pos rfl]
      by_cases refused : colExpandBuffSize < file.length ∨ c.expanding
      · rw [if_pos refused, if_neg]
        · exact holding
        · rintro ⟨-, none, le⟩
          rcases refused with long | started
          · omega
          · rw [expanding, none] at started
            exact absurd started (by simp)
      · obtain ⟨le, idle⟩ := not_or.mp refused
        have none : h.pending = none := by
          cases started : h.pending with
          | none => rfl
          | some text => exact absurd (by simp [expanding, started]) idle
        rw [if_neg refused, if_pos ⟨rfl, none, not_lt.mp le⟩]
        exact holding.force legal (not_lt.mp le) none

end

end Proofs

/-- In every run of expansions and restarts whose starts all leave a terminated text, a restart
gives back the text of the last completed expansion and the text of a started one. -/
theorem expansions_remembered (builds : List UInt8 → Bool) {rest file : List UInt8}
    {c : DTCColExpand} (made : DTCColExpand.initialization rest file = some c)
    (some : rest ≠ []) (legal : 0 ∉ file ∧ builds file) (events : List ExpandEvent)
    (admitted : Machine.Admitted (fun s event => event.Legal builds ∧ Terminated builds s event)
      (expandStep builds) (c, ⟨file, none⟩) events) :
    Remembers builds (Machine.final (expandStep builds) (c, ⟨file, none⟩) events) := by
  suffices holding : Holding builds c ⟨file, none⟩ from
    (Machine.final_invariant (fun s => Holding builds s.1 s.2)
      (fun _ _ inv ok => inv.step ok.1 ok.2) holding admitted).remembers
  unfold DTCColExpand.initialization at made
  dsimp only at made
  split_ifs at made with long
  obtain rfl := Option.some.inj made
  exact ⟨Nat.two_pow_pos 8, List.length_pos_of_ne_nil some, stringAt_store legal.1, not_lt.mp long, legal.2,
    rfl, nofun⟩

/-- A first expansion finds its slot empty. -/
theorem expansions_remembered_first : ∃ c, DTCColExpand.initialization [0] [97, 98] = some c ∧
    Remembers (fun _ => true)
      (Machine.final (expandStep fun _ => true) (c, ⟨[97, 98], none⟩) [.start [99], .done]) := by
  refine ⟨_, rfl, expansions_remembered _ rfl (by simp) (by simp) _ ?_⟩
  refine ⟨⟨trivial, fun _ => ?_⟩, ⟨trivial, trivial⟩, trivial⟩
  decide +kernel

/-- The third text is copied over the first one, which was longer: the restart takes a text for
the current one that was never given. -/
theorem remains_not_remembered : ∃ c, DTCColExpand.initialization [0] [97, 98, 99, 100] = some c ∧
    ¬ Remembers (fun _ => true)
      (Machine.final (expandStep fun _ => true) (c, ⟨[97, 98, 99, 100], none⟩)
        [.start [120, 121], .done, .start [122], .done]) := by
  refine ⟨_, rfl, fun remembers => absurd (remembers []) ?_⟩
  decide +kernel

end Dtc.Data
