import Dtc.Agent.Receiver

/-!
# Streams cut into reads

A peer sends frames, and each call of the receiver finds some more of their bytes in its buffer.
`Recognised` says when the guess the receiver makes is right for what has arrived; a run all of
whose reads are recognised hands on the frames of the stream, and nothing else.
-/

namespace Dtc.Agent

open Library.Machine Library.Memory Packet List Receiver

variable {frames : List Frame}

section Frames

/-- What the frame looks like to `DecodeOneRequest`. -/
def Frame.handed (p : Frame) : Handed := ⟨p.bytes, p.bytes.length⟩

def bytesOf (frames : List Frame) : List UInt8 := (frames.map Frame.bytes).flatten

@[simp] theorem bytesOf_nil : bytesOf [] = [] := rfl

@[simp] theorem bytesOf_cons (p : Frame) (frames : List Frame) :
    bytesOf (p :: frames) = p.bytes ++ bytesOf frames := rfl

theorem bytesOf_append (frames more : List Frame) :
    bytesOf (frames ++ more) = bytesOf frames ++ bytesOf more := by
  simp [bytesOf]

theorem take_drop_append {α : Type} {i n : Nat} {xs : List α} (inside : i + n ≤ xs.length)
    (ys : List α) : ((xs ++ ys).drop i).take n = (xs.drop i).take n := by
  rw [drop_append_of_le_length (by omega), take_append_of_le_length]
  rw [length_drop]
  omega

variable {header : List UInt8}

section
variable (long : headerV1Size ≤ header.length) (more : List UInt8)

include long more

theorem sectionLen_append {i : Nat} (bound : i < sectionTotal) :
    sectionLen (header ++ more) i = sectionLen header i := by
  unfold sectionLen
  unfold headerV1Size at long
  unfold sectionTotal at bound
  rw [take_drop_append (by omega)]

theorem packetBodyLenV1_append : packetBodyLenV1 (header ++ more) = packetBodyLenV1 header := by
  unfold packetBodyLenV1
  congr 1
  exact map_congr_left fun i mem => sectionLen_append long more (mem_range.mp mem)

/-- A header is read from its own bytes. -/
theorem decodeHeaderV1_append : decodeHeaderV1 (header ++ more) = decodeHeaderV1 header := by
  have two : 1 < header.length := by
    unfold headerV1Size at long
    omega
  have version : (header ++ more).head? = header.head? := by
    cases header with
    | nil => cases two
    | cons b header => rfl
  have scts : (header ++ more)[1]? = header[1]? := getElem?_append_left two
  have sections : ((range sectionTotal).any fun i =>
      decide (maxPacketSize < sectionLen (header ++ more) i)) =
      (range sectionTotal).any fun i => decide (maxPacketSize < sectionLen header i) := by
    rw [Bool.eq_iff_iff, any_eq_true, any_eq_true]
    refine exists_congr fun i => and_congr_right fun mem => ?_
    rw [sectionLen_append long more (mem_range.mp mem)]
  unfold decodeHeaderV1
  rw [version, scts, sections, packetBodyLenV1_append long]

end

theorem decodeHeaderV1_eq_some {n : Nat} (decoded : decodeHeaderV1 header = some n) :
    header.head? = some 1 ∧ packetBodyLenV1 header = n := by
  unfold decodeHeaderV1 at decoded
  split_ifs at decoded with version scts sections total
  exact ⟨not_not.mp version, Option.some.inj decoded⟩

namespace Frame
variable (p : Frame)

theorem length_bytes_pos : 4 ≤ p.bytes.length := by
  have wellFormed := p.wellFormed
  cases kind : p.kind with
  | v1 | v2 =>
    rw [kind] at wellFormed
    exact Nat.le_trans (by decide) wellFormed.1
  | mysql =>
    rw [kind] at wellFormed
    unfold Kind.WellFormed mysqlHeaderSize at wellFormed
    omega

/-- The length of a frame is read from its own bytes. -/
theorem packetLen_append (more : List UInt8) :
    p.kind.packetLen (p.bytes ++ more) = p.bytes.length := by
  have wellFormed := p.wellFormed
  cases kind : p.kind with
  | v1 =>
    rw [kind] at wellFormed
    obtain ⟨long, decoded⟩ := wellFormed
    have body := (decodeHeaderV1_eq_some decoded).2
    simp only [Kind.packetLen, packetBodyLenV1_append long, body]
    omega
  | v2 =>
    rw [kind] at wellFormed
    obtain ⟨long, -, length⟩ := wellFormed
    unfold headerV2Size at long
    simp only [Kind.packetLen, packetLenV2, take_drop_append (show 4 + 4 ≤ p.bytes.length by omega)]
    exact length
  | mysql =>
    rw [kind] at wellFormed
    have long := p.length_bytes_pos
    simp only [Kind.packetLen, uintTrans3, take_append_of_le_length
      (show 3 ≤ p.bytes.length by omega)]
    exact wellFormed

end Frame

theorem decodeAgentRequest_frames {kind : Kind} (same : ∀ p ∈ frames, p.kind = kind) :
    decodeAgentRequest kind frames.length (bytesOf frames) = frames.map Frame.handed := by
  induction frames with
  | nil => rfl
  | cons p frames ih =>
    have length := p.packetLen_append (bytesOf frames)
    rw [same p mem_cons_self] at length
    rw [length_cons, bytesOf_cons, decodeAgentRequest, length, take_left, drop_left,
      ih fun q mem => same q (mem_cons_of_mem p mem)]
    rfl

end Frames

variable {buffer : List UInt8}

section Loop

theorem mysqlLoop_of_pos {first : Nat} (pos : 0 < first) (leftlen : Nat) :
    mysqlLoop first 2 0 leftlen 0 = if leftlen < first then some (0, 0) else some (leftlen, 1) := by
  unfold mysqlLoop
  split_ifs
  · rfl
  · simp [mysqlLoop, pos]

/-- A first byte of zero keeps the loop going for ever. -/
theorem mysqlLoop_zero (fuel pos leftlen pktCnt : Nat) :
    mysqlLoop 0 fuel pos leftlen pktCnt = none := by
  induction fuel generalizing pos leftlen pktCnt with
  | zero => rfl
  | succ fuel ih => exact ih (pos + leftlen) 0 1

theorem countPacketMysql_of_pos (pos : 0 < (buffer.headD 0).toNat) :
    countPacketMysql buffer = if buffer.length < (buffer.headD 0).toNat then .packets 0 0
      else .packets buffer.length 1 := by
  unfold countPacketMysql
  rw [mysqlLoop_of_pos pos]
  split_ifs <;> rfl

end Loop

section Recognised

/-- Every frame of which the header or all bytes are among the first `stored` is of version 1. -/
def OnlyV1 : Nat → List Frame → Prop
  | _, [] => True
  | stored, p :: rest =>
    (min headerV1Size p.bytes.length ≤ stored → p.kind = .v1) ∧
      (p.bytes.length ≤ stored → OnlyV1 (stored - p.bytes.length) rest)

/-- The number in the first byte of a frame. -/
def Frame.firstByte (p : Frame) : Nat := (p.bytes.headD 0).toNat

/-- A frame of MySQL that is taken for one exactly when all of it has arrived. The first bytes 1
and 2 are those of the other protocols, except in the shortest frames. -/
def Frame.MysqlRecognised (p : Frame) (stored : Nat) : Prop :=
  p.firstByte ≠ 0 ∧
    if stored = p.bytes.length then
      (p.firstByte = 1 → stored = 5) ∧ (p.firstByte = 2 → stored = 6)
    else
      stored < p.bytes.length ∧
        if p.firstByte = 1 then stored < headerV1Size ∧ stored ≠ 5
        else if p.firstByte = 2 then stored < headerV2Size ∧ stored ≠ 6
        else stored < p.firstByte

/-- The first `stored` bytes of the frames are seen for what they are: frames of version 1, one
frame of another kind, or too little of a frame to be taken for one. -/
def Recognised (stored : Nat) : List Frame → Prop
  | [] => True
  | p :: rest =>
    match p.kind with
    | .v1 => stored ≠ 5 ∧ OnlyV1 stored (p :: rest)
    | .v2 => stored = p.bytes.length ∨ stored < headerV2Size ∧ stored ≠ 6
    | .mysql => p.MysqlRecognised stored

instance decidableOnlyV1 : ∀ (stored : Nat) (frames : List Frame), Decidable (OnlyV1 stored frames)
  | _, [] => isTrue trivial
  | stored, p :: rest =>
    have := decidableOnlyV1 (stored - p.bytes.length) rest
    inferInstanceAs (Decidable ((_ → _) ∧ (_ → _)))

instance (p : Frame) (stored : Nat) : Decidable (p.MysqlRecognised stored) := by
  unfold Frame.MysqlRecognised
  infer_instance

instance (stored : Nat) : ∀ frames : List Frame, Decidable (Recognised stored frames)
  | [] => isTrue trivial
  | p :: rest => by
    unfold Recognised
    dsimp only
    cases p.kind <;> dsimp only <;> infer_instance

/-- The count is right: it is that of the first `n` frames, all of one kind, and less than a
frame is left. -/
structure CountsRight (buffer : List UInt8) (frames : List Frame) (kind : Kind) (result : Counted)
    (n : Nat) (tail : List UInt8) : Prop where
  result_eq : result = .packets (bytesOf (frames.take n)).length n
  kind_eq : ∀ p ∈ frames.take n, p.kind = kind
  buffer_eq : buffer = bytesOf (frames.take n) ++ tail
  short : ∀ p ∈ (frames.drop n).head?, tail.length < p.bytes.length
  bound : n ≤ frames.length

variable {rest : List Frame}

variable {p : Frame}

theorem CountsRight.none_taken {kind : Kind} {result : Counted}
    (counted : result = .packets 0 0) (short : buffer.length < p.bytes.length) :
    CountsRight buffer (p :: rest) kind result 0 buffer where
  result_eq := counted
  kind_eq := by simp
  buffer_eq := rfl
  short := by simpa using short
  bound := Nat.zero_le _

theorem CountsRight.one_taken {kind : Kind} {result : Counted} (ofKind : p.kind = kind)
    (counted : result = .packets p.bytes.length 1) :
    CountsRight p.bytes (p :: rest) kind result 1 [] where
  result_eq := by simpa using counted
  kind_eq := by simpa using ofKind
  buffer_eq := by simp
  short := by
    intro q _
    have := q.length_bytes_pos
    simp only [length_nil]
    omega
  bound := by simp

variable {more : List UInt8}

theorem countPacketV1_frames (split : buffer ++ more = bytesOf frames)
    (only : OnlyV1 buffer.length frames) :
    ∃ n tail, CountsRight buffer frames .v1 (countPacketV1 buffer) n tail := by
  induction frames generalizing buffer with
  | nil =>
    have empty : buffer = [] := (append_eq_nil_iff.mp split).1
    subst empty
    refine ⟨0, [], ?_, by simp, rfl, by simp, Nat.le_refl 0⟩
    unfold countPacketV1
    rfl
  | cons p frames ih =>
    rcases Nat.lt_or_ge buffer.length p.bytes.length with short | long
    · -- not all of the first frame has arrived
      refine ⟨0, buffer, CountsRight.none_taken ?_ short⟩
      unfold countPacketV1
      split_ifs with header
      · rfl
      · obtain ⟨missing, same⟩ : ∃ missing, p.bytes = buffer ++ missing := by
          have pre : buffer <+: p.bytes ++ bytesOf frames := ⟨more, split⟩
          obtain ⟨missing, same⟩ := (prefix_of_prefix_length_le pre
            (prefix_append _ _) (Nat.le_of_lt short))
          exact ⟨missing, same.symm⟩
        have isV1 := only.1 (Nat.le_trans (Nat.min_le_left _ _) (Nat.le_of_not_lt header))
        have wellFormed := p.wellFormed
        rw [isV1] at wellFormed
        have decoded := wellFormed.2
        rw [same, decodeHeaderV1_append (Nat.le_of_not_lt header)] at decoded
        rw [decoded, ← same]
        exact if_pos (by omega)
    · -- the first frame is there, and the count goes on behind it
      have isV1 := only.1 (Nat.le_trans (Nat.min_le_right _ _) long)
      obtain ⟨rest, rfl⟩ : ∃ rest, buffer = p.bytes ++ rest := by
        have pre : p.bytes <+: buffer := prefix_of_prefix_length_le
          (prefix_append _ (bytesOf frames)) ⟨more, split⟩ long
        obtain ⟨rest, same⟩ := pre
        exact ⟨rest, same.symm⟩
      rw [append_assoc] at split
      have later := only.2 long
      rw [length_append, Nat.add_sub_cancel_left] at later
      obtain ⟨n, tail, right⟩ := ih (append_cancel_left split) later
      have wellFormed := p.wellFormed
      rw [isV1] at wellFormed
      obtain ⟨header, decoded⟩ := wellFormed
      have total : headerV1Size + (p.bytes.length - headerV1Size) = p.bytes.length := by omega
      have counted : countPacketV1 (p.bytes ++ rest) =
          .packets (p.bytes.length + (bytesOf (frames.take n)).length) (n + 1) := by
        rw [countPacketV1, if_neg (by rw [length_append]; omega),
          decodeHeaderV1_append header, decoded]
        simp only [total]
        rw [if_neg (by rw [length_append]; omega), drop_left, right.result_eq]
      refine ⟨n + 1, tail, ?_, ?_, ?_, right.short, by simpa using right.bound⟩
      · rw [counted, take_succ_cons, bytesOf_cons, length_append]
      · rw [take_succ_cons]
        exact forall_mem_cons.mpr ⟨isV1, right.kind_eq⟩
      · rw [take_succ_cons, bytesOf_cons, append_assoc, ← right.buffer_eq]

/-- A frame that has arrived up to its length is the buffer, if nothing else is in there. -/
theorem eq_of_length_eq (split : buffer ++ more = bytesOf (p :: rest))
    (same : buffer.length = p.bytes.length) : buffer = p.bytes :=
  (append_inj split same).1

theorem headD_eq (split : buffer ++ more = bytesOf (p :: rest)) (some_ : buffer ≠ []) :
    buffer.headD 0 = p.bytes.headD 0 := by
  have long := p.length_bytes_pos
  rw [bytesOf_cons] at split
  cases buffer with
  | nil => exact absurd rfl some_
  | cons b buffer =>
    cases bytes : p.bytes with
    | nil =>
      rw [bytes] at long
      cases long
    | cons c bytes' =>
      rw [bytes] at split
      exact (cons.inj split).1

theorem mysql_length (kind : p.kind = .mysql) : p.firstByte ≤ p.bytes.length := by
  have wellFormed := p.wellFormed
  have long := p.length_bytes_pos
  have length : leNat (p.bytes.take 3) + mysqlHeaderSize = p.bytes.length := by
    rw [kind] at wellFormed
    exact wellFormed
  match bytes : p.bytes with
  | [] =>
    rw [bytes] at long
    cases long
  | b :: rest =>
    have first : p.firstByte = b.toNat := by rw [Frame.firstByte, bytes]; rfl
    rw [bytes, take_succ_cons, leNat] at length
    omega

/-- What is recognised is counted right. -/
theorem countPackets_frames (split : buffer ++ more = bytesOf frames) (some_ : buffer ≠ [])
    (small : buffer.length < 2 ^ 31) (recognised : Recognised buffer.length frames) :
    ∃ n tail, CountsRight buffer frames (guessKind buffer)
      (countPackets (guessKind buffer) buffer) n tail := by
  have counts : ∀ kind, countPackets kind buffer = match kind with
      | .v1 => countPacketV1 buffer
      | .v2 => countPacketV2 buffer
      | .mysql => countPacketMysql buffer := fun kind => if_neg (Nat.not_le.mpr small)
  cases frames with
  | nil => exact absurd (append_eq_nil_iff.mp split).1 some_
  | cons p rest =>
    have head := headD_eq split some_
    have wellFormed := p.wellFormed
    cases kind : p.kind with
    | v1 =>
      rw [kind] at wellFormed
      simp only [Recognised, kind] at recognised
      obtain ⟨notFive, only⟩ := recognised
      have first : buffer.headD 0 = 1 := by
        rw [head, headD_eq_head?_getD, (decodeHeaderV1_eq_some wellFormed.2).1]
        rfl
      have guess : guessKind buffer = .v1 := by rw [guessKind, if_pos first, if_neg notFive]
      rw [guess, counts]
      exact countPacketV1_frames split only
    | v2 =>
      rw [kind] at wellFormed
      simp only [Recognised, kind] at recognised
      obtain ⟨long, version, -⟩ := wellFormed
      have first : buffer.headD 0 = 2 := by
        rw [head, headD_eq_head?_getD, version]
        rfl
      unfold headerV2Size at long recognised
      have notSix : buffer.length ≠ 6 := by omega
      have guess : guessKind buffer = .v2 := by
        rw [guessKind, if_neg (by rw [first]; decide), if_pos first, if_neg notSix]
      rw [guess, counts]
      rcases recognised with all | ⟨short, -⟩
      · have same := eq_of_length_eq split all
        subst same
        exact ⟨1, [], CountsRight.one_taken kind (if_neg (Nat.not_lt.mpr long))⟩
      · exact ⟨0, buffer, CountsRight.none_taken (if_pos short) (by omega)⟩
    | mysql =>
      simp only [Recognised, kind] at recognised
      obtain ⟨pos, arrived⟩ := recognised
      have first : (buffer.headD 0).toNat = p.firstByte := by rw [head]; rfl
      have isOne : buffer.headD 0 = 1 ↔ p.firstByte = 1 := by
        rw [← first, ← UInt8.toNat_inj]
        rfl
      have isTwo : buffer.headD 0 = 2 ↔ p.firstByte = 2 := by
        rw [← first, ← UInt8.toNat_inj]
        rfl
      have counted := countPacketMysql_of_pos (Nat.pos_of_ne_zero (first.trans_ne pos))
      rw [first] at counted
      split_ifs at arrived with all one two
      · -- one whole frame
        have guess : guessKind buffer = .mysql := by
          unfold guessKind
          split_ifs with h₁ h₂ h₃ h₄
          · rfl
          · exact absurd (arrived.1 (isOne.mp h₁)) h₂
          · rfl
          · exact absurd (arrived.2 (isTwo.mp h₃)) h₄
          · rfl
        rw [guess, counts]
        have same := eq_of_length_eq split all
        subst same
        exact ⟨1, [], CountsRight.one_taken kind
          (counted.trans (if_neg (Nat.not_lt.mpr (mysql_length kind))))⟩
      · -- taken for the beginning of a frame of version 1
        have guess : guessKind buffer = .v1 := by
          rw [guessKind, if_pos (isOne.mpr one), if_neg arrived.2.2]
        rw [guess, counts]
        refine ⟨0, buffer, CountsRight.none_taken ?_ arrived.1⟩
        show countPacketV1 buffer = .packets 0 0
        rw [countPacketV1, if_pos arrived.2.1]
      · -- taken for the beginning of a frame of version 2
        have guess : guessKind buffer = .v2 := by
          rw [guessKind, if_neg (mt isOne.mp one), if_pos (isTwo.mpr two), if_neg arrived.2.2]
        rw [guess, counts]
        exact ⟨0, buffer, CountsRight.none_taken (if_pos arrived.2.1) arrived.1⟩
      · have guess : guessKind buffer = .mysql := by
          rw [guessKind, if_neg (mt isOne.mp one), if_neg (mt isTwo.mp two)]
        rw [guess, counts]
        exact ⟨0, buffer, CountsRight.none_taken (counted.trans (if_pos arrived.2)) arrived.1⟩

end Recognised

section Runs
variable {stream : List Frame} {r : Receiver}

/-- The frames that are handed on are the first ones of the stream, and less than a frame is in
the buffer. -/
structure Receiver.Correct (stream : List Frame) (r : Receiver) : Prop where
  running : r.status = .running
  room : r.buffer.length ≤ r.buffSize
  handed_eq : r.handed = (stream.take r.handed.length).map Frame.handed
  bytes_eq : r.buffer ++ r.unread = bytesOf (stream.drop r.handed.length)
  short : ∀ p ∈ (stream.drop r.handed.length).head?, r.buffer.length < p.bytes.length

/-- What arrives with the read is recognised, in a buffer that has not grown out of bounds. -/
def Receiver.Legal (stream : List Frame) (r : Receiver) (read : Receiver.Read) : Prop :=
  r.buffSize ≤ 2 ^ 28 ∧ ((r.realRecv read).buffer.length = r.buffer.length ∨
    Recognised (r.realRecv read).buffer.length (stream.drop r.handed.length))

instance (stream : List Frame) (r : Receiver) (read : Receiver.Read) :
    Decidable (r.Legal stream read) := by
  unfold Receiver.Legal
  infer_instance

/-- Growing and reading change the buffer and the unread bytes only, and keep their sum. -/
structure Receiver.Reads (r r' : Receiver) (times : Nat) : Prop where
  status : r'.status = r.status
  handed : r'.handed = r.handed
  bytes : r'.buffer ++ r'.unread = r.buffer ++ r.unread
  room : r'.buffer.length ≤ r'.buffSize
  size : r'.buffSize ≤ times * r.buffSize

theorem Receiver.reads_recvOnce (room : r.buffer.length ≤ r.buffSize) (n : Nat) :
    r.Reads (r.recvOnce n) 1 where
  status := rfl
  handed := rfl
  bytes := by simp [recvOnce, append_assoc]
  room := by
    simp only [recvOnce, length_append, length_take]
    omega
  size := by simp [recvOnce]

theorem Receiver.reads_enlargeBuffer (room : r.buffer.length ≤ r.buffSize)
    (bound : r.buffSize ≤ 2 ^ 30) : r.Reads r.enlargeBuffer 2 := by
  unfold enlargeBuffer
  split_ifs with full small
  · exact ⟨rfl, rfl, rfl, by dsimp only; omega, by dsimp only; omega⟩
  · omega
  · exact ⟨rfl, rfl, rfl, room, by omega⟩

theorem Receiver.Reads.trans {r' r'' : Receiver} {k l : Nat} (first : r.Reads r' k)
    (second : r'.Reads r'' l) : r.Reads r'' (l * k) where
  status := second.status.trans first.status
  handed := second.handed.trans first.handed
  bytes := second.bytes.trans first.bytes
  room := second.room
  size := by
    have := Nat.mul_le_mul_left l first.size
    rw [← Nat.mul_assoc] at this
    exact Nat.le_trans second.size this

theorem Receiver.reads_realRecv (room : r.buffer.length ≤ r.buffSize)
    (bound : r.buffSize ≤ 2 ^ 28) (read : Read) : r.Reads (r.realRecv read) 4 := by
  have grown := r.reads_enlargeBuffer room (by omega)
  have first := grown.trans (r.enlargeBuffer.reads_recvOnce grown.room read.first)
  unfold realRecv
  dsimp only
  split_ifs with full
  · have small : (r.enlargeBuffer.recvOnce read.first).buffSize ≤ 2 ^ 30 := by
      have := first.size
      omega
    have again := reads_enlargeBuffer first.room small
    exact (first.trans again).trans (reads_recvOnce again.room read.second)
  · exact { first with size := by have := first.size; omega }

/-- Handing on what is recognised. -/
theorem Receiver.correct_setRecvedInfo (running : r.status = .running)
    (room : r.buffer.length ≤ r.buffSize)
    (handed : r.handed = (stream.take r.handed.length).map Frame.handed)
    (bytes : r.buffer ++ r.unread = bytesOf (stream.drop r.handed.length))
    (some_ : r.buffer ≠ []) (small : r.buffer.length < 2 ^ 31)
    (recognised : Recognised r.buffer.length (stream.drop r.handed.length)) :
    r.setRecvedInfo.Correct stream := by
  obtain ⟨n, tail, right⟩ := countPackets_frames bytes some_ small recognised
  unfold setRecvedInfo
  rw [right.result_eq]
  dsimp only
  split_ifs with none_
  · subst none_
    have same : r.buffer = tail := right.buffer_eq
    refine ⟨running, room, handed, bytes, ?_⟩
    rw [same]
    exact right.short
  · have taken : r.buffer.take (bytesOf ((stream.drop r.handed.length).take n)).length =
        bytesOf ((stream.drop r.handed.length).take n) := by
      rw [right.buffer_eq, take_left]
    have left_ : r.buffer.drop (bytesOf ((stream.drop r.handed.length).take n)).length = tail := by
      rw [right.buffer_eq, drop_left]
    have decoded := decodeAgentRequest_frames right.kind_eq
    rw [length_take_of_le right.bound] at decoded
    rw [taken, left_, decoded]
    have count : (r.handed ++ ((stream.drop r.handed.length).take n).map Frame.handed).length =
        r.handed.length + n := by
      rw [length_append, length_map, length_take_of_le right.bound]
    have later : stream.drop (r.handed.length + n) = (stream.drop r.handed.length).drop n :=
      (drop_drop).symm
    refine ⟨running, ?_, ?_, ?_, ?_⟩
    · have := right.buffer_eq
      have lengths := congrArg length this
      rw [length_append] at lengths
      dsimp only
      omega
    · dsimp only
      rw [count, take_add, map_append, ← handed]
    · dsimp only
      rw [count, later]
      rw [right.buffer_eq, append_assoc,
        ← take_append_drop n (stream.drop r.handed.length), bytesOf_append,
        take_append_drop] at bytes
      exact append_cancel_left bytes
    · dsimp only
      rw [count, later]
      exact right.short

theorem Receiver.enlargeBuffer_buffer (r : Receiver) :
    r.enlargeBuffer.buffer = r.buffer ∧ r.enlargeBuffer.unread = r.unread := by
  unfold enlargeBuffer
  split_ifs <;> exact ⟨rfl, rfl⟩

theorem Receiver.recvOnce_buffer (r : Receiver) (n : Nat) : r.buffer <+: (r.recvOnce n).buffer :=
  prefix_append _ _

theorem Receiver.first_isPrefix (r : Receiver) (read : Read) :
    (r.enlargeBuffer.recvOnce read.first).buffer <+: (r.realRecv read).buffer := by
  unfold realRecv
  dsimp only
  split_ifs
  · have again := recvOnce_buffer (r.enlargeBuffer.recvOnce read.first).enlargeBuffer read.second
    rwa [(enlargeBuffer_buffer _).1] at again
  · exact prefix_refl _

theorem Receiver.Correct.step (correct : r.Correct stream) {read : Read}
    (legal : r.Legal stream read) : (r.receiveNetworkPacket read).Correct stream := by
  obtain ⟨size, arrived⟩ := legal
  have grown := r.reads_enlargeBuffer correct.room (by omega)
  have reads := r.reads_realRecv correct.room size read
  unfold receiveNetworkPacket
  rw [if_neg (not_not.mpr correct.running), if_neg (not_not.mpr (grown.status.trans correct.running))]
  split_ifs with nothing failed
  · refine ⟨grown.status.trans correct.running, grown.room, ?_, ?_, ?_⟩
    · rw [grown.handed]
      exact correct.handed_eq
    · rw [grown.bytes, grown.handed]
      exact correct.bytes_eq
    · rw [grown.handed, r.enlargeBuffer_buffer.1]
      exact correct.short
  · exact absurd (reads.status.trans correct.running) failed
  · -- something was read, so the buffer is longer than before
    have first := recvOnce_buffer r.enlargeBuffer read.first
    rw [r.enlargeBuffer_buffer.1] at first
    have longer : r.buffer.length < (r.realRecv read).buffer.length := by
      have whole := (r.first_isPrefix read).length_le
      have more : r.buffer.length ≠ (r.enlargeBuffer.recvOnce read.first).buffer.length :=
        fun same => nothing (first.eq_of_length same).symm
      have := first.length_le
      omega
    have small : (r.realRecv read).buffer.length < 2 ^ 31 := by
      have := reads.room
      have := reads.size
      omega
    refine correct_setRecvedInfo (reads.status.trans correct.running) reads.room ?_ ?_ ?_ small ?_
    · rw [reads.handed]
      exact correct.handed_eq
    · rw [reads.bytes, reads.handed]
      exact correct.bytes_eq
    · intro empty
      rw [empty] at longer
      cases longer
    · rw [reads.handed]
      exact arrived.resolve_left (Nat.ne_of_gt longer)

/-- The receiver as a machine; it gives no replies. -/
def Receiver.step (r : Receiver) (read : Receiver.Read) : Unit × Receiver :=
  ((), r.receiveNetworkPacket read)

theorem Receiver.correct_initial (stream : List Frame) :
    (initial (bytesOf stream)).Correct stream where
  running := rfl
  room := Nat.zero_le _
  handed_eq := rfl
  bytes_eq := rfl
  short := by
    intro p _
    have := p.length_bytes_pos
    show 0 < p.bytes.length
    omega

/-- A frame of version 1 without a body. -/
def emptyV1 : Frame where
  kind := .v1
  bytes := 1 :: 8 :: List.replicate 34 0
  wellFormed := by decide +kernel

/-- A frame of MySQL with the given body. -/
def mysqlFrame (body : List UInt8) (short : body.length < 256) : Frame where
  kind := .mysql
  bytes := UInt8.ofNat body.length :: 0 :: 0 :: 0 :: body
  wellFormed := by
    have small : (UInt8.ofNat body.length).toNat = body.length := by
      rw [UInt8.toNat_ofNat']
      exact Nat.mod_eq_of_lt short
    simp [Kind.WellFormed, uintTrans3, leNat, mysqlHeaderSize, small]

/-- However a stream is cut into reads that are recognised, every call returns, the packets
handed on are the first frames of the stream, and all of them when all bytes are read. -/
theorem received_frames (stream : List Frame) (reads : List Receiver.Read)
    (legal : Admitted (Receiver.Legal stream) Receiver.step (.initial (bytesOf stream)) reads) :
    (final Receiver.step (.initial (bytesOf stream)) reads).status = .running ∧
    (∃ k, (final Receiver.step (.initial (bytesOf stream)) reads).handed =
      (stream.take k).map Frame.handed) ∧
    ((final Receiver.step (.initial (bytesOf stream)) reads).unread = [] →
      (final Receiver.step (.initial (bytesOf stream)) reads).handed = stream.map Frame.handed) := by
  have correct := final_invariant (Correct stream)
    (fun _ _ correct legal => Correct.step correct legal)
    (correct_initial stream) legal
  generalize final step (.initial (bytesOf stream)) reads = r at correct
  refine ⟨correct.running, ⟨_, correct.handed_eq⟩, fun all => ?_⟩
  -- nothing is left, or the first frame that is left would be in the buffer
  have bytes := correct.bytes_eq
  rw [all, append_nil] at bytes
  have handed := correct.handed_eq
  cases rest : stream.drop r.handed.length with
  | nil =>
    have complete := take_append_drop r.handed.length stream
    rw [rest, append_nil] at complete
    rwa [complete] at handed
  | cons p frames =>
    have short := correct.short
    rw [rest] at bytes short
    have less := short p rfl
    rw [bytes, bytesOf_cons, length_append] at less
    omega

/-- A frame of version 1 in two reads, and a frame of MySQL in one. -/
theorem received_frames_sample :
    (final Receiver.step (.initial (bytesOf [emptyV1, mysqlFrame [3, 4, 5] (by decide)]))
      [⟨10, 0⟩, ⟨26, 0⟩, ⟨7, 0⟩]).status = .running ∧
    (∃ k, (final Receiver.step (.initial (bytesOf [emptyV1, mysqlFrame [3, 4, 5] (by decide)]))
      [⟨10, 0⟩, ⟨26, 0⟩, ⟨7, 0⟩]).handed =
        ([emptyV1, mysqlFrame [3, 4, 5] (by decide)].take k).map Frame.handed) ∧
    ((final Receiver.step (.initial (bytesOf [emptyV1, mysqlFrame [3, 4, 5] (by decide)]))
      [⟨10, 0⟩, ⟨26, 0⟩, ⟨7, 0⟩]).unread = [] →
      (final Receiver.step (.initial (bytesOf [emptyV1, mysqlFrame [3, 4, 5] (by decide)]))
        [⟨10, 0⟩, ⟨26, 0⟩, ⟨7, 0⟩]).handed =
          [emptyV1, mysqlFrame [3, 4, 5] (by decide)].map Frame.handed) :=
  received_frames [emptyV1, mysqlFrame [3, 4, 5] (by decide)] [⟨10, 0⟩, ⟨26, 0⟩, ⟨7, 0⟩]
    (by decide +kernel)

/-- An empty frame of MySQL keeps the receiver in its loop, whatever number of rounds it has; the
first four bytes of a frame are handed on as if they were all of it; and two frames in one read
stay where they are. -/
theorem receiver_fails :
    ((final Receiver.step (.initial (bytesOf [mysqlFrame [] (by decide)])) [⟨4, 0⟩]).status =
        .looping ∧ ∀ fuel, mysqlLoop 0 fuel 0 4 0 = none) ∧
    (final Receiver.step (.initial (bytesOf [mysqlFrame [3, 4, 5] (by decide)])) [⟨4, 0⟩]).handed =
      [⟨[3, 0, 0, 0], 7⟩] ∧
    ((final Receiver.step (.initial (bytesOf [mysqlFrame [14] (by decide), mysqlFrame [14] (by decide)]))
        [⟨10, 0⟩, ⟨10, 0⟩]).unread = [] ∧
      (final Receiver.step (.initial (bytesOf [mysqlFrame [14] (by decide), mysqlFrame [14] (by decide)]))
        [⟨10, 0⟩, ⟨10, 0⟩]).handed = []) :=
  ⟨⟨by decide +kernel, fun fuel => mysqlLoop_zero fuel 0 4 0⟩, by decide +kernel, by decide +kernel,
    by decide +kernel⟩

end Runs

end Dtc.Agent
