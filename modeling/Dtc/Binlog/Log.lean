import Dtc.Binlog.Record
import Dtc.Library.Machine

/-!
# Writer and reader of the binlog

The two share the directory of the log only. Every system call that the other side can
observe or disturb is a step of its own: the writer's `write` may show up in the file piece
by piece, and between a read that comes up short and the scan of the directory that follows
it the writer may go on.
-/

namespace Dtc.Binlog

open Library.Memory

/-- A file that has been created. Its data stays readable for who has opened it, also when
the name is gone. -/
structure File where
  content : List UInt8
  linked : Bool

structure Limits where
  maxSize : Nat
  totalSize : Nat

inductive WriterPhase
  | idle
  /-- In `write`, with the first `put` bytes of the record in the file. -/
  | writing (record : List UInt8) (put : Nat)
  /-- Behind `write`. -/
  | written (size : Nat)
  /-- In `shift_file`, before the next file is opened. -/
  | rotating

/-- What `Read` wants from the file: the length of a record, or what is behind it. -/
inductive Want
  | length
  | body (head : List UInt8) (len : Nat)

def Want.size : Want → Nat
  | .length => 4
  | .body _ len => len

inductive ReaderPhase
  /-- Before `::read`; with `Want.length` also between two calls of `Read`. -/
  | reading (want : Want)
  /-- `::read` has returned `rd` bytes, which are too few. -/
  | short (want : Want) (rd : Nat)

/-- The reader is about to read the length of a record. -/
def ReaderPhase.isReady : ReaderPhase → Bool
  | .reading .length => true
  | _ => false

/-- The reader is between a short read and the scan of the directory. -/
def ReaderPhase.isShort : ReaderPhase → Bool
  | .short _ _ => true
  | _ => false

structure State where
  /-- by serial number -/
  files : Nat → Option File
  curSize : Nat
  maxSerial : Nat
  minSerial : Nat
  writer : WriterPhase
  /-- `_cur_serial` of the reader -/
  serial : Nat
  /-- `_cur_offset` -/
  offset : Nat
  /-- the position of `_fd` -/
  pos : Nat
  isOpen : Bool
  reader : ReaderPhase
  /-- The records that are completely in a file. -/
  committed : Nat → List (List UInt8)
  /-- What `Read` has returned. -/
  delivered : List (List UInt8)

namespace State

def content (s : State) (serial : Nat) : List UInt8 :=
  (s.files serial).elim [] File.content

def linked (s : State) (serial : Nat) : Bool :=
  (s.files serial).any File.linked

/-- `*max` of `scan_serial`; there is no file above the one of the writer. -/
def scanMax (s : State) : Nat :=
  (List.range (s.maxSerial + 1)).foldl (fun max v => if s.linked v then v else max) 0

/-- The loop that passes over missing files: `n` numbers above `serial` may be tried. -/
def openFrom (s : State) (serial : Nat) : Nat → Nat × Bool
  | 0 => (serial, s.linked serial)
  | n + 1 => if s.linked serial then (serial, true) else s.openFrom (serial + 1) n

end State

inductive Event
  | commit (record : Record)
  | put (n : Nat)
  | finish
  | create
  | read

inductive Reply
  /-- Nothing is returned yet. -/
  | going
  /-- `Read` returns -1. -/
  | failed
  /-- `Read` returns 0 with this buffer. -/
  | record (bytes : List UInt8)
  deriving DecidableEq

/-- `delete_file` -/
def unlink (files : Nat → Option File) (serial : Nat) : Nat → Option File := fun n =>
  if n = serial then (files n).map fun f => { f with linked := false } else files n

section Steps
variable (lim : Limits) (s : State)

/-- The next `n` bytes of the record get into the file. -/
def put (record : List UInt8) (done n : Nat) : State :=
  let files := fun k =>
    if k = s.maxSerial then
      (s.files k).map fun f => { f with content := f.content ++ (record.drop done).take n }
    else s.files k
  if done + n < record.length then { s with files, writer := .writing record (done + n) }
  else
    { s with
      files
      writer := .written record.length
      committed := fun k => if k = s.maxSerial then s.committed k ++ [record] else s.committed k }

/-- `shift_file` up to the removal of the oldest file. -/
def finish (size : Nat) : State :=
  let curSize := s.curSize + size
  if curSize < lim.maxSize then { s with curSize, writer := .idle }
  else
    let total := sub32 s.maxSerial s.minSerial * lim.maxSize % 2 ^ 64
    if lim.totalSize ≤ total then
      { s with
        curSize
        files := unlink s.files s.minSerial
        minSerial := add32 s.minSerial 1
        writer := .rotating }
    else { s with curSize, writer := .rotating }

/-- The rest of `shift_file`. -/
def create : State :=
  let maxSerial := add32 s.maxSerial 1
  { s with
    files := fun k => if k = maxSerial then some ⟨[], true⟩ else s.files k
    curSize := 0
    maxSerial
    writer := .idle }

/-- `seek` to the current position. -/
def seek : State :=
  if s.linked s.serial then
    if (s.content s.serial).length % 2 ^ 32 < s.offset % 2 ^ 32 then s
    else { s with pos := s.offset % 2 ^ 32, offset := s.offset % 2 ^ 32 }
  else s

/-- One `::read`. -/
def readFile (want : Want) : Reply × State :=
  if s.isOpen then
    let got := ((s.content s.serial).drop s.pos).take want.size
    if got.length = want.size then
      let s := { s with pos := s.pos + want.size, offset := s.offset + want.size }
      match want with
      | .length =>
        let len := leNat got
        if len < 8 ∨ 2 ^ 20 ≤ len then (.failed, { s with reader := .reading .length })
        else (.going, { s with reader := .reading (.body got len) })
      | .body head _ =>
        (.record (head ++ got),
          { s with reader := .reading .length, delivered := s.delivered ++ [head ++ got] })
    else (.going, { s with pos := s.pos + got.length, reader := .short want got.length })
  else (.failed, { s with reader := .reading .length })

/-- What `LogReader::read` does when there are too few bytes. The first bytes of a record are
given up for the next file, or read again. -/
def readShort (want : Want) (rd : Nat) : Reply × State :=
  let max := s.scanMax
  if s.serial < max then
    let (serial, isOpen) := s.openFrom (s.serial + 1) (max - (s.serial + 1))
    let s := { s with serial, isOpen, offset := 0, pos := 0 }
    if isOpen then (.going, { s with reader := .reading want })
    else (.failed, { s with reader := .reading .length })
  else
    let s := if 0 < rd then seek s else s
    (.failed, { s with reader := .reading .length })

/-- One step of the writer or the reader. An event that cannot happen changes nothing. -/
def step (lim : Limits) (s : State) : Event → Reply × State
  | .commit record =>
    match s.writer with
    | .idle => (.going, { s with writer := .writing record.bytes 0 })
    | _ => (.going, s)
  | .put n =>
    match s.writer with
    | .writing record done => (.going, if n = 0 then s else put s record done n)
    | _ => (.going, s)
  | .finish =>
    match s.writer with
    | .written size => (.going, finish lim s size)
    | _ => (.going, s)
  | .create =>
    match s.writer with
    | .rotating => (.going, create s)
    | _ => (.going, s)
  | .read =>
    match s.reader with
    | .reading want => readFile s want
    | .short want rd => readShort s want rd

end Steps

end Dtc.Binlog
