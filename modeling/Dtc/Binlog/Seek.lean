import Dtc.Binlog.Delivery

/-!
# Seeking in the binlog

`LogReader::seek` gives up the open file before it knows whether there is the position asked for
in the other one. A `read` that the writer does not come between is the steps of the reader of a log.
-/

namespace Dtc.Binlog

/-- `JournalID` -/
structure JournalID where
  serial : Nat
  offset : Nat
  deriving DecidableEq

/-- `LogReader` -/
structure LogReader where
  /-- the file that `_fd` is open on, and the position in it -/
  fd : Option (Nat × Nat)
  curSerial : Nat
  curOffset : Nat
  deriving DecidableEq

namespace LogReader

/-- `query` -/
def query (r : LogReader) : JournalID := ⟨r.curSerial, r.curOffset % 2 ^ 32⟩

/-- What `stat_size` leaves in `file_size`, which is 0 before. -/
def statSize (s : State) (r : LogReader) : Nat :=
  r.fd.elim 0 fun file => (s.content file.1).length

/-- `seek` once the file is open. -/
def moveTo (s : State) (v : JournalID) (r : LogReader) : Int × LogReader :=
  if r.statSize s % 2 ^ 32 < v.offset then (-1, r)
  else (0, ⟨r.fd.map fun file => (file.1, v.offset), v.serial, v.offset⟩)

/-- `seek`; `opens` is whether `::open` succeeds on a file that exists. -/
def seek (s : State) (opens : Bool) (v : JournalID) (r : LogReader) : Int × LogReader :=
  if s.linked v.serial then
    if v.serial = r.curSerial then moveTo s v r
    else if opens then moveTo s v { r with fd := some (v.serial, 0) }
    else (-1, { r with fd := none })
  else (-1, r)

/-- `read`, with at most `n` files to go on to. -/
def read (s : State) (size : Nat) : Nat → LogReader → Option (List UInt8) × LogReader
  | n, r =>
    match r.fd with
    | none => (none, r)
    | some (file, pos) =>
      let got := ((s.content file).drop pos).take size
      if got.length = size then
        (some got, ⟨some (file, pos + size), r.curSerial, r.curOffset + size⟩)
      else if r.curSerial < s.scanMax then
        let (serial, isOpen) := s.openFrom (r.curSerial + 1) (s.scanMax - (r.curSerial + 1))
        match n, isOpen with
        | n + 1, true => read s size n ⟨some (serial, 0), serial, 0⟩
        | _, _ => (none, ⟨none, serial, 0⟩)
      else
        let r := { r with fd := some (file, pos + got.length) }
        (none, if 0 < got.length then (seek s true r.query r).2 else r)

end LogReader

/-- The reader of a log. -/
def State.logReader (s : State) : LogReader :=
  ⟨if s.isOpen then some (s.serial, s.pos) else none, s.serial, s.offset⟩

theorem openFrom_congr {s s' : State} (linked : s'.linked = s.linked) (serial n : Nat) :
    s'.openFrom serial n = s.openFrom serial n := by
  induction n generalizing serial with
  | zero => rw [State.openFrom, State.openFrom, linked]
  | succ n ih => rw [State.openFrom, State.openFrom, linked, ih]

namespace LogReader

section Steps
variable {s : State} (isOpen : s.isOpen = true) (want : Want) (n : Nat)

include isOpen

theorem logReader_of_open : s.logReader = ⟨some (s.serial, s.pos), s.serial, s.offset⟩ := by
  rw [State.logReader, if_pos isOpen]

/-- The seek of a reader that came up short is one to its own position. -/
theorem seek_logReader :
    (seek s true s.logReader.query s.logReader).2 = (Binlog.seek s).logReader := by
  unfold seek moveTo statSize query Binlog.seek State.logReader
  simp only [isOpen, if_true, Option.elim_some, Option.map_some]
  by_cases there : s.linked s.serial
  · rw [if_pos there, if_pos there]
    by_cases beyond : (s.content s.serial).length % 2 ^ 32 < s.offset % 2 ^ 32
    · rw [if_pos beyond, if_pos beyond, isOpen, if_pos rfl]
    · rw [if_neg beyond, if_neg beyond]
      rfl
  · rw [if_neg there, if_neg there, isOpen, if_pos rfl]

/-- A `read` of enough bytes is one step of the reader of a log. -/
theorem read_enough (enough : (((s.content s.serial).drop s.pos).take want.size).length = want.size) :
    (read s want.size n s.logReader).2 = (readFile s want).2.logReader := by
  have next : (readFile s want).2.logReader =
      ⟨some (s.serial, s.pos + want.size), s.serial, s.offset + want.size⟩ := by
    rw [readFile, if_pos isOpen]
    dsimp only
    rw [if_pos enough]
    cases want with
    | length =>
      dsimp only
      split_ifs <;>
        exact logReader_of_open (s := { s with pos := _, offset := _, reader := _ }) isOpen
    | body =>
      exact logReader_of_open
        (s := { s with pos := _, offset := _, reader := _, delivered := _ }) isOpen
  rw [next, logReader_of_open isOpen, read]
  dsimp only
  rw [if_pos enough]

/-- Otherwise it is two steps, and goes on in the file that is opened. -/
theorem read_short (few : (((s.content s.serial).drop s.pos).take want.size).length ≠ want.size) :
    let rd := (((s.content s.serial).drop s.pos).take want.size).length
    let between := { s with pos := s.pos + rd, reader := .short want rd }
    readFile s want = (.going, between) ∧ read s want.size (n + 1) s.logReader =
      match readShort between want rd with
      | (.going, after) => read s want.size n after.logReader
      | (_, after) => (none, after.logReader) := by
  intro rd between
  constructor
  · rw [readFile, if_pos isOpen]
    exact if_neg few
  rw [logReader_of_open isOpen, read]
  dsimp only
  rw [if_neg few, readShort, show between.scanMax = s.scanMax from rfl]
  dsimp only
  by_cases newer : s.serial < s.scanMax
  · rw [if_pos newer, if_pos (show between.serial < s.scanMax from newer),
      openFrom_congr (show between.linked = s.linked from rfl), show between.serial = s.serial from rfl]
    rcases s.openFrom (s.serial + 1) (s.scanMax - (s.serial + 1)) with ⟨serial, _ | _⟩
    · rfl
    · rfl
  · rw [if_neg newer, if_neg (show ¬between.serial < s.scanMax from newer)]
    have place := logReader_of_open (s := between) isOpen
    have moved := seek_logReader (s := between) isOpen
    rw [place] at moved
    by_cases some : 0 < rd
    · rw [if_pos some, if_pos some]
      exact congrArg (Prod.mk none) moved
    · rw [if_neg some, if_neg some]
      exact congrArg (Prod.mk none) place.symm

end Steps

variable {s : State} {opens : Bool} {v : JournalID} {r : LogReader}

theorem with_fd_eq {fd : Option (Nat × Nat)} : { r with fd } = r ↔ r.fd = fd := by
  cases r
  simp [eq_comm]

/-- Once the file is open, a failure changes nothing. -/
theorem moveTo_fails (failed : (moveTo s v r).1 = -1) : (moveTo s v r).2 = r := by
  unfold moveTo at failed ⊢
  split_ifs at failed ⊢
  rfl

/-- A seek that fails leaves the reader as it was, and with it the next read, if and only if the
file does not exist or is the current one, the seek does not fail, or the reader is already where
the failure leaves it. -/
theorem seek_failure_keeps_iff (s : State) (opens : Bool) (v : JournalID) (r : LogReader) :
    ((seek s opens v r).1 = -1 → (seek s opens v r).2 = r ∧
        (seek s opens v r).2.query = r.query ∧
        ∀ size n, read s size n (seek s opens v r).2 = read s size n r) ↔
      s.linked v.serial = false ∨ v.serial = r.curSerial ∨
        (opens = true ∧ v.offset ≤ (s.content v.serial).length % 2 ^ 32) ∨
        r.fd = if opens then some (v.serial, 0) else none := by
  have whole : ((seek s opens v r).1 = -1 → (seek s opens v r).2 = r ∧
      (seek s opens v r).2.query = r.query ∧
      ∀ size n, read s size n (seek s opens v r).2 = read s size n r) ↔
      ((seek s opens v r).1 = -1 → (seek s opens v r).2 = r) := by
    refine imp_congr_right fun _ => ⟨And.left, fun same => ?_⟩
    rw [same]
    exact ⟨rfl, rfl, fun _ _ => rfl⟩
  rw [whole, seek]
  cases there : s.linked v.serial with
  | false => simp
  | true =>
    rw [if_pos rfl]
    by_cases current : v.serial = r.curSerial
    · simpa [current] using moveTo_fails
    rw [if_neg current]
    cases opens with
    | false => simp [current, with_fd_eq]
    | true =>
      have size : statSize s { r with fd := some (v.serial, 0) } = (s.content v.serial).length :=
        rfl
      rw [if_pos rfl, moveTo, size]
      by_cases beyond : (s.content v.serial).length % 2 ^ 32 < v.offset
      · rw [if_pos beyond]
        simp [current, with_fd_eq, -Nat.reducePow, Nat.not_le.mpr beyond]
      · rw [if_neg beyond]
        simp [-Nat.reducePow, Nat.not_lt.mp beyond]

/-- Two files with four bytes each. -/
def twoFiles : State :=
  { emptyLog with
    files := fun n => if n = 1 ∨ n = 2 then some ⟨List.replicate 4 n.toUInt8, true⟩ else none
    maxSerial := 2 }

/-- A failed seek to the second file: the position reported is still in the first file, but the
next read is from the second. -/
theorem seek_failure_moves :
    seek twoFiles true ⟨2, 9⟩ ⟨some (1, 0), 1, 0⟩ = (-1, ⟨some (2, 0), 1, 0⟩) ∧
      (read twoFiles 4 1 ⟨some (1, 0), 1, 0⟩).1 = some [1, 1, 1, 1] ∧
      (read twoFiles 4 1 ⟨some (2, 0), 1, 0⟩).1 = some [2, 2, 2, 2] := by
  decide

end LogReader

end Dtc.Binlog
