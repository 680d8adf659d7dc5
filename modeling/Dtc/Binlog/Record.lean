import Dtc.Library.Memory

/-!
# Records of the binlog

A record is a header and a number of bodies, each behind its length. The first word of the
header is the number of bytes behind it.
-/

namespace Dtc.Binlog

open Library.Memory List

/-- What is appended between `insert_header` and `Commit`. -/
structure Record where
  type : UInt8
  operater : UInt8
  timestamp : Nat
  count : Nat
  bodies : List (List UInt8)

/-- `insert_header`; the length is not known yet. -/
def insertHeader (type operater : UInt8) (timestamp count : Nat) : List UInt8 :=
  leBytes 4 0 ++ [2, type, operater] ++ List.replicate 5 0 ++ leBytes 4 timestamp ++ leBytes 4 count

/-- `append_body`; of the size the low four bytes. -/
def appendBody (buffer body : List UInt8) : List UInt8 :=
  buffer ++ leBytes 4 body.length ++ body

/-- The bytes that `Commit` writes. -/
def commit (buffer : List UInt8) : List UInt8 :=
  leBytes 4 (buffer.length - 4) ++ buffer.drop 4

/-- The bytes of a record in the log. -/
def Record.bytes (r : Record) : List UInt8 :=
  commit (r.bodies.foldl appendBody (insertHeader r.type r.operater r.timestamp r.count))

section
variable (buffer : List UInt8)

/-- The 32-bit number at a place of the buffer. -/
def word (place : Nat) : Nat :=
  leNat ((buffer.drop place).take 4)

/-- `offsetof(binlog_header_t, endof)` -/
def endof : Nat := 20

/-- The variable `l` of `record_pointer` after some rounds of the loop. -/
def pointerOffset : Nat → Nat
  | 0 => 4
  | i + 1 =>
    let l := pointerOffset i
    add32 l (add32 (word buffer (endof + l - 4)) 4)

/-- `record_pointer`, as a place in the buffer. -/
def recordPointer (id : Nat) : Nat :=
  endof + pointerOffset buffer id

/-- The variable `ll` of `record_length` after some rounds of the loop. -/
def lengthOffset : Nat → Nat
  | 0 => 0
  | i + 1 =>
    let ll := lengthOffset i
    add32 ll (add32 (word buffer (endof + ll)) 4)

/-- `record_length` -/
def recordLength (id : Nat) : Nat :=
  word buffer (endof + lengthOffset buffer id)

end

/-- A body with its length. -/
def frame (body : List UInt8) : List UInt8 := leBytes 4 body.length ++ body

theorem length_frame (body : List UInt8) : (frame body).length = 4 + body.length := by
  simp [frame]

theorem foldl_appendBody (buffer : List UInt8) (bodies : List (List UInt8)) :
    bodies.foldl appendBody buffer = buffer ++ (bodies.map frame).flatten := by
  induction bodies generalizing buffer with
  | nil => simp
  | cons body bodies ih => simp [ih, appendBody, frame]

theorem length_insertHeader (type operater : UInt8) (timestamp count : Nat) :
    (insertHeader type operater timestamp count).length = endof := by
  simp [insertHeader, endof]

namespace Record
variable (r : Record)

/-- The bytes behind the header. -/
def frames : List UInt8 := (r.bodies.map frame).flatten

/-- The header without its length word. -/
def info : List UInt8 := (insertHeader r.type r.operater r.timestamp r.count).drop 4

theorem length_info : r.info.length = 16 := by
  rw [info, length_drop, length_insertHeader, endof]

theorem bytes_eq : r.bytes = leBytes 4 (16 + r.frames.length) ++ (r.info ++ r.frames) := by
  have long : 4 ≤ (insertHeader r.type r.operater r.timestamp r.count).length := by
    rw [length_insertHeader, endof]
    decide
  rw [bytes, foldl_appendBody, commit, drop_append_of_le_length long, length_append,
    length_insertHeader, endof, Nat.sub_add_comm (by decide)]
  rfl

theorem length_bytes : r.bytes.length = endof + r.frames.length := by
  rw [bytes_eq, length_append, length_append, length_leBytes, length_info, endof]
  omega

theorem drop_endof_bytes : r.bytes.drop endof = r.frames := by
  rw [bytes_eq, ← append_assoc, drop_append_of_le_length (by simp [length_info, endof])]
  simp [length_info, endof]

theorem take_four_bytes : r.bytes.take 4 = leBytes 4 (r.bytes.length - 4) := by
  rw [length_bytes, bytes_eq, take_append_of_le_length (by simp), endof,
    Nat.sub_add_comm (by decide)]
  exact take_of_length_le (by simp)

end Record

section Bodies
variable {buffer : List UInt8} {bodies : List (List UInt8)}

/-- The number of bytes of the first bodies with their lengths. -/
def framed (bodies : List (List UInt8)) (i : Nat) : Nat :=
  ((bodies.take i).map frame).flatten.length

theorem framed_succ {i : Nat} (bound : i < bodies.length) :
    framed bodies (i + 1) = framed bodies i + 4 + bodies[i].length := by
  rw [framed, framed, take_succ_eq_append_getElem bound, map_append, flatten_append,
    length_append, map_singleton, flatten_singleton, length_frame, Nat.add_assoc]

/-- The bytes from the `i`-th body on. -/
theorem drop_framed {i : Nat} (bound : i < bodies.length) :
    ((bodies.map frame).flatten).drop (framed bodies i) =
      leBytes 4 bodies[i].length ++ (bodies[i] ++ ((bodies.drop (i + 1)).map frame).flatten) := by
  have split : (bodies.map frame).flatten =
      ((bodies.take i).map frame).flatten ++ ((bodies.drop i).map frame).flatten := by
    rw [← flatten_append, ← map_append, take_append_drop]
  rw [split, framed, drop_left, drop_eq_getElem_cons bound, map_cons,
    flatten_cons, frame, append_assoc]

theorem framed_le (i : Nat) : framed bodies i ≤ ((bodies.map frame).flatten).length := by
  have split : (bodies.map frame).flatten.length =
      framed bodies i + ((bodies.drop i).map frame).flatten.length := by
    rw [framed, ← length_append, ← flatten_append, ← map_append, take_append_drop]
  omega

end Bodies

section Access
variable {r : Record} (small : r.bytes.length < 2 ^ 32)
include small

open Record

variable {i : Nat}

theorem length_body_lt (bound : i < r.bodies.length) :
    endof + framed r.bodies i + 4 + r.bodies[i].length < 2 ^ 32 := by
  have : framed r.bodies (i + 1) ≤ _ := framed_le (i + 1)
  rw [framed_succ bound] at this
  rw [length_bytes, frames] at small
  omega

theorem word_framed (bound : i < r.bodies.length) :
    word r.bytes (endof + framed r.bodies i) = r.bodies[i].length := by
  have fits := length_body_lt small bound
  rw [word, ← drop_drop, drop_endof_bytes, frames, drop_framed bound,
    take_append_of_le_length (by simp), take_of_length_le (by simp),
    leNat_leBytes_of_lt (by omega)]

theorem lengthOffset_eq (bound : i ≤ r.bodies.length) :
    lengthOffset r.bytes i = framed r.bodies i := by
  induction i with
  | zero => simp [lengthOffset, framed]
  | succ i ih =>
    have fits := length_body_lt small bound
    rw [lengthOffset, ih (by omega), word_framed small bound, framed_succ bound]
    rw [add32_eq (a := r.bodies[i].length) (by omega), add32_eq (by omega)]
    omega

theorem pointerOffset_eq (bound : i ≤ r.bodies.length) :
    pointerOffset r.bytes i = 4 + framed r.bodies i := by
  induction i with
  | zero => simp [pointerOffset, framed]
  | succ i ih =>
    have fits := length_body_lt small bound
    have place : endof + (4 + framed r.bodies i) - 4 = endof + framed r.bodies i := by omega
    rw [pointerOffset, ih (by omega), place, word_framed small bound, framed_succ bound]
    rw [add32_eq (a := r.bodies[i].length) (by omega), add32_eq (by simp only [endof] at fits; omega)]
    omega

/-- `record_pointer` and `record_length` give the bodies in the order of `append_body`. -/
theorem record_access (bound : i < r.bodies.length) :
    (r.bytes.drop (recordPointer r.bytes i)).take (recordLength r.bytes i) = r.bodies[i] := by
  rw [recordLength, lengthOffset_eq small bound.le, word_framed small bound, recordPointer,
    pointerOffset_eq small bound.le, Nat.add_left_comm, Nat.add_comm 4, ← drop_drop,
    ← drop_drop, drop_endof_bytes, frames, drop_framed bound]
  simp

end Access

end Dtc.Binlog
