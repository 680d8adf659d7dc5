import Dtc.Library.Machine
import Dtc.Packet.Codec

/-!
# The receiver of the server

`AgentReceiver` reads from a connection into a buffer that it doubles when it is full. After
each read it guesses from the first byte and the number of bytes which protocol the buffer
holds, counts the packets in it, and hands them on; what is left stays for the next read. The
packets handed on are cut out of the buffer by the lengths in their headers.

A packet of version 1 is found wherever it ends. A buffer of the other two kinds is taken for one
packet as soon as it is long enough, and the loop that counts packets of MySQL does not end when
the first byte is zero.
-/

namespace Dtc.Agent

open Library.Memory Packet

section Headers

/-- `sizeof(DTC_HEADER_V1)` -/
def headerV1Size : Nat := 36

/-- `sizeof(DTC_HEADER_V2)` -/
def headerV2Size : Nat := 16

/-- `MYSQL_HEADER_SIZE` -/
def mysqlHeaderSize : Nat := 4

/-- `DRequest::Section::Total` -/
def sectionTotal : Nat := 8

/-- `header->len[i]` -/
def sectionLen (header : List UInt8) (i : Nat) : Nat := leNat ((header.drop (4 + 4 * i)).take 4)

/-- `packet_body_len_v1` -/
def packetBodyLenV1 (header : List UInt8) : Nat :=
  ((List.range sectionTotal).map (sectionLen header)).sum

/-- The length of the body, if the header is one of version 1. -/
def decodeHeaderV1 (header : List UInt8) : Option Nat :=
  if header.head? ≠ some 1 then none
  else if header[1]? ≠ some (UInt8.ofNat sectionTotal) then none
  else if (List.range sectionTotal).any fun i => maxPacketSize < sectionLen header i then none
  else if maxPacketSize < packetBodyLenV1 header then none
  else some (packetBodyLenV1 header)

/-- `packet_len` of a header of version 2 -/
def packetLenV2 (header : List UInt8) : Nat := leNat ((header.drop 4).take 4)

/-- `uint_trans_3` -/
def uintTrans3 (bytes : List UInt8) : Nat := leNat (bytes.take 3)

inductive Kind
  | v1
  | v2
  | mysql
  deriving DecidableEq, Repr

/-- The length of the packet that a text begins with, from its header. -/
def Kind.packetLen : Kind → List UInt8 → Nat
  | v1, bytes => packetBodyLenV1 bytes + headerV1Size
  | v2, bytes => packetLenV2 bytes
  | mysql, bytes => uintTrans3 bytes + mysqlHeaderSize

/-- The header of a packet tells its length. -/
def Kind.WellFormed : Kind → List UInt8 → Prop
  | v1, bytes => headerV1Size ≤ bytes.length ∧
      decodeHeaderV1 bytes = some (bytes.length - headerV1Size)
  | v2, bytes => headerV2Size ≤ bytes.length ∧ bytes.head? = some 2 ∧
      packetLenV2 bytes = bytes.length
  | mysql, bytes => uintTrans3 bytes + mysqlHeaderSize = bytes.length

instance (kind : Kind) (bytes : List UInt8) : Decidable (kind.WellFormed bytes) := by
  cases kind <;> unfold Kind.WellFormed <;> infer_instance

/-- A packet on the wire. -/
structure Frame where
  kind : Kind
  bytes : List UInt8
  wellFormed : kind.WellFormed bytes

end Headers

section Receiver

/-- What counting the packets of a buffer gives: the bytes they take and their number. -/
inductive Counted
  | error
  | loops
  | packets (pktTail pktCnt : Nat)
  deriving DecidableEq, Repr

/-- `count_packet_v1`, from a position on. -/
def countPacketV1 (left : List UInt8) : Counted :=
  if left.length < headerV1Size then .packets 0 0
  else
    match decodeHeaderV1 left with
    | none => .error
    | some pktbodylen =>
      if left.length < headerV1Size + pktbodylen then .packets 0 0
      else
        match countPacketV1 (left.drop (headerV1Size + pktbodylen)) with
        | .packets pktTail pktCnt => .packets (headerV1Size + pktbodylen + pktTail) (pktCnt + 1)
        | failed => failed
termination_by left.length
decreasing_by
  rw [List.length_drop]
  unfold headerV1Size at *
  omega

/-- `count_packet_v2`: the loop takes all there is and then ends. -/
def countPacketV2 (buffer : List UInt8) : Counted :=
  if buffer.length < headerV2Size then .packets 0 0 else .packets buffer.length 1

/-- The loop of `count_packet_mysql`, for at most `fuel` rounds. -/
def mysqlLoop (first : Nat) : Nat → Nat → Nat → Nat → Option (Nat × Nat)
  | 0, _, _, _ => none
  | fuel + 1, pos, leftlen, pktCnt =>
    if leftlen < first then some (pos, pktCnt) else mysqlLoop first fuel (pos + leftlen) 0 1

/-- Two rounds decide whether the loop ends at all. -/
def countPacketMysql (buffer : List UInt8) : Counted :=
  match mysqlLoop (buffer.headD 0).toNat 2 0 buffer.length 0 with
  | none => .loops
  | some (pktTail, pktCnt) => .packets pktTail pktCnt

/-- The guess of `set_recved_info`. -/
def guessKind (buffer : List UInt8) : Kind :=
  if buffer.headD 0 = 1 then if buffer.length = 5 then .mysql else .v1
  else if buffer.headD 0 = 2 then if buffer.length = 6 then .mysql else .v2
  else .mysql

/-- The count for a kind. A buffer of 2³¹ bytes has a negative `leftlen`. -/
def countPackets (kind : Kind) (buffer : List UInt8) : Counted :=
  if 2 ^ 31 ≤ buffer.length then .packets 0 0
  else
    match kind with
    | .v1 => countPacketV1 buffer
    | .v2 => countPacketV2 buffer
    | .mysql => countPacketMysql buffer

/-- What `DecodeOneRequest` is called with: the length, and the bytes of the buffer it covers. -/
structure Handed where
  bytes : List UInt8
  packetlen : Nat
  deriving DecidableEq, Repr

/-- `decode_agent_request` -/
def decodeAgentRequest (kind : Kind) : Nat → List UInt8 → List Handed
  | 0, _ => []
  | packetCnt + 1, packets =>
    ⟨packets.take (kind.packetLen packets), kind.packetLen packets⟩ ::
      decodeAgentRequest kind packetCnt (packets.drop (kind.packetLen packets))

inductive Status
  | running
  | failed
  | looping
  deriving DecidableEq, Repr

/-- The receiver with the bytes that are still to come. -/
structure Receiver where
  unread : List UInt8
  buffer : List UInt8
  buffSize : Nat
  handed : List Handed
  status : Status
  deriving DecidableEq, Repr

/-- `AGENT_INIT_RECV_BUFF_SIZE` -/
def initRecvBuffSize : Nat := 4096

/-- `initialization`, before a stream. -/
def Receiver.initial (stream : List UInt8) : Receiver := ⟨stream, [], initRecvBuffSize, [], .running⟩

namespace Receiver

def isNeedEnlargeBuffer (r : Receiver) : Bool := decide (r.buffer.length = r.buffSize)

/-- A full buffer is doubled, which fails when the size no longer fits into 32 bits. -/
def enlargeBuffer (r : Receiver) : Receiver :=
  if r.isNeedEnlargeBuffer then
    if r.buffSize * 2 < 2 ^ 32 then { r with buffSize := r.buffSize * 2 }
    else { r with status := .failed }
  else r

/-- `recv` gives at most `n` bytes. -/
def recvOnce (r : Receiver) (n : Nat) : Receiver :=
  let rv := min n (r.buffSize - r.buffer.length)
  { r with buffer := r.buffer ++ r.unread.take rv, unread := r.unread.drop rv }

def setRecvedInfo (r : Receiver) : Receiver :=
  match countPackets (guessKind r.buffer) r.buffer with
  | .error => { r with status := .failed }
  | .loops => { r with status := .looping }
  | .packets pktTail pktCnt =>
    if pktCnt = 0 then r
    else { r with
      buffer := r.buffer.drop pktTail
      handed := r.handed ++
        decodeAgentRequest (guessKind r.buffer) pktCnt (r.buffer.take pktTail) }

/-- How many bytes `recv` gives at most, in `real_recv` and in `recv_again`. -/
structure Read where
  first : Nat
  second : Nat
  deriving DecidableEq, Repr

/-- The bytes of one call: `real_recv`, and `recv_again` if the buffer is full. -/
def realRecv (r : Receiver) (read : Read) : Receiver :=
  let r := r.enlargeBuffer.recvOnce read.first
  if r.isNeedEnlargeBuffer then r.enlargeBuffer.recvOnce read.second else r

def receiveNetworkPacket (r : Receiver) (read : Read) : Receiver :=
  if r.status ≠ .running then r
  else if r.enlargeBuffer.status ≠ .running then r.enlargeBuffer
  else if (r.enlargeBuffer.recvOnce read.first).buffer = r.buffer then r.enlargeBuffer
  else if (r.realRecv read).status ≠ .running then r.realRecv read
  else (r.realRecv read).setRecvedInfo

end Receiver

end Receiver

end Dtc.Agent
