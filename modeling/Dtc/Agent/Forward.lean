import Dtc.Agent.Message

/-!
# What the agent forwards

For reads that end with a packet, the agent recognises the packets of the client one by one and
forwards those that are queries. `outcome` says what is forwarded, packet by packet; the loop
over the buffers agrees with it (`parseLoop_frames`), and so does every run of such reads.
-/

namespace Dtc.Agent

open Library.Machine Library.Memory List

variable {packet : List UInt8} {app : App} {fs : List (List UInt8)}

section Outcome
variable (env : Env) (size : Nat)

/-- What the agent makes of packets, one after the other: the connection afterwards and the
frames forwarded, or nothing if one of them is not accepted or does not fit into a buffer with
its header. The packets are the messages from number `k` on. -/
def outcome : App → Nat → List (List UInt8) → Option (App × List (List UInt8))
  | app, _, [] => some (app, [])
  | app, k, packet :: rest =>
    match processPacket env app (packet.drop mysqlHeaderSize) with
    | none => none
    | some (app, .answered) => outcome app (k + 1) rest
    | some (app, .forwarded layer database) =>
      if size < headerV2Size + database.length + packet.length then none
      else (outcome app (k + 1) rest).map fun last =>
        (last.1, dtcFrame (env.msgId k) layer database packet :: last.2)

/-- Every packet is accepted: it has a command byte once the client is logged in, and a query is
routed. One that is forwarded fits into a buffer with its header and the name of the database. -/
def Accepted : App → List (List UInt8) → Prop
  | _, [] => True
  | app, packet :: rest =>
    match processPacket env app (packet.drop mysqlHeaderSize) with
    | none => False
    | some (app, .answered) => Accepted app rest
    | some (app, .forwarded _ database) =>
      headerV2Size + database.length + packet.length ≤ size ∧ Accepted app rest

theorem Accepted.outcome {app : App} {packets : List (List UInt8)}
    (accepted : Accepted env size app packets) (k : Nat) :
    ∃ result, outcome env size app k packets = some result := by
  induction packets generalizing app k with
  | nil => exact ⟨_, rfl⟩
  | cons packet packets ih =>
    rw [Accepted] at accepted
    rw [Agent.outcome]
    match handled : processPacket env app (packet.drop mysqlHeaderSize) with
    | none =>
      rw [handled] at accepted
      exact accepted.elim
    | some (app, .answered) =>
      rw [handled] at accepted
      exact ih accepted (k + 1)
    | some (app, .forwarded layer database) =>
      rw [handled] at accepted
      obtain ⟨fits, rest⟩ := accepted
      obtain ⟨last, result⟩ := ih rest (k + 1)
      dsimp only
      rw [if_neg (Nat.not_lt.mpr fits), result]
      exact ⟨_, rfl⟩

theorem outcome_append (app : App) (k : Nat) (packets more : List (List UInt8)) :
    outcome env size app k (packets ++ more) =
      (outcome env size app k packets).bind fun first =>
        (outcome env size first.1 (k + packets.length) more).map fun last =>
          (last.1, first.2 ++ last.2) := by
  induction packets generalizing app k with
  | nil =>
    cases last : outcome env size app k more <;> simp [outcome, last]
  | cons packet packets ih =>
    have count : k + (packet :: packets).length = k + 1 + packets.length := by
      rw [length_cons]
      omega
    rw [count, cons_append, outcome, outcome]
    match processPacket env app (packet.drop mysqlHeaderSize) with
    | none => rfl
    | some (app, .answered) => exact ih app (k + 1)
    | some (app, .forwarded layer database) =>
      dsimp only
      split_ifs
      · rfl
      · rw [ih app (k + 1)]
        cases outcome env size app (k + 1) packets with
        | none => rfl
        | some first =>
          simp only [Option.map_some, Option.bind_some, Option.map_map]
          rfl

theorem length_dtcFrame (id : Nat) (layer : UInt8) (database packet : List UInt8) :
    (dtcFrame id layer database packet).length = headerV2Size + database.length + packet.length := by
  unfold dtcFrame headerV2Size
  simp only [length_append, length_leBytes, length_cons, length_nil]

/-- The header tells the length of the frame. -/
theorem packetLenV2_dtcFrame {id : Nat} {layer : UInt8} {database : List UInt8}
    (small : (dtcFrame id layer database packet).length < 2 ^ 32) :
    packetLenV2 (dtcFrame id layer database packet) =
      (dtcFrame id layer database packet).length := by
  rw [length_dtcFrame] at small ⊢
  have field : ((dtcFrame id layer database packet).drop 4).take 4 =
      leBytes 4 (packet.length + headerV2Size + database.length) := by
    unfold dtcFrame
    exact take_left' (length_leBytes _ _)
  rw [packetLenV2, field, leNat_leBytes_of_lt (by omega)]
  omega

/-- Everything forwarded is one of the packets behind its header and the name of the database. -/
theorem mem_outcome {app' : App} {k : Nat} {packets : List (List UInt8)}
    (result : outcome env size app k packets = some (app', fs)) :
    ∀ f ∈ fs, f.length ≤ size ∧ ∃ packet ∈ packets, ∃ id layer database,
      f = dtcFrame id layer database packet := by
  induction packets generalizing app k fs with
  | nil =>
    cases result
    simp
  | cons packet packets ih =>
    rw [outcome] at result
    match handled : processPacket env app (packet.drop mysqlHeaderSize) with
    | none =>
      rw [handled] at result
      cases result
    | some (app, .answered) =>
      rw [handled] at result
      intro f mem
      obtain ⟨fits, p, inside, form⟩ := ih result f mem
      exact ⟨fits, p, mem_cons_of_mem packet inside, form⟩
    | some (app, .forwarded layer database) =>
      rw [handled] at result
      dsimp only at result
      split_ifs at result with large
      obtain ⟨last, found, same⟩ := Option.map_eq_some_iff.mp result
      cases same
      intro f mem
      rcases mem_cons.mp mem with rfl | later
      · refine ⟨?_, packet, mem_cons_self, _, _, _, rfl⟩
        rw [length_dtcFrame]
        omega
      · obtain ⟨fits, p, inside, form⟩ := ih found f later
        exact ⟨fits, p, mem_cons_of_mem packet inside, form⟩

end Outcome

section Loop
variable {env : Env} {size : Nat}

theorem myParseReq_frame (size : Nat) {p : Frame} (mysql : p.kind = .mysql) (more : List UInt8) :
    myParseReq size (p.bytes ++ more) 0 = .ok p.bytes := by
  have length := p.packetLen_append more
  rw [mysql] at length
  have total : mysqlHeaderSize + uintTrans3 (p.bytes ++ more) = p.bytes.length := by
    rw [← length, Nat.add_comm]
    rfl
  have long := p.length_bytes_pos
  unfold myParseReq
  rw [drop_zero]
  dsimp only
  rw [total, if_neg, if_neg, take_left]
  · rw [length_append]
    omega
  · rw [length_append]
    omega

theorem parseLoop_ok (c : Conn) {msg : Message}
    (parsed : myParseReq size msg.last msg.pos = .ok packet) :
    c.parseLoop env size msg =
      if (c.dispatch env size msg packet).broken then c.dispatch env size msg packet
      else if msg.pos + packet.length = msg.last.length then
        { c.dispatch env size msg packet with rmsg := none }
      else
        Conn.parseLoop env size
          { c.dispatch env size msg packet with
            messages := (c.dispatch env size msg packet).messages + 1 }
          ⟨(c.dispatch env size msg packet).messages, [],
            msg.last.drop (msg.pos + packet.length), 0⟩ := by
  rw [Conn.parseLoop]
  split
  · rename_i wrong
    rw [parsed] at wrong
    cases wrong
  · rename_i wrong
    rw [parsed] at wrong
    cases wrong
  · rename_i packet' right
    rw [parsed] at right
    cases right
    rfl

/-- One packet that is accepted and fits. -/
theorem dispatch_frame {c : Conn} {k : Nat} (more : List UInt8) {rest : List (List UInt8)}
    (accepted : outcome env size c.app k (packet :: rest) = some (app, fs)) :
    ∃ app' first later, c.dispatch env size ⟨k, [], packet ++ more, 0⟩ packet =
        { c with
          app := app'
          recognised := c.recognised ++ [packet]
          forwarded := c.forwarded ++ first
          broken := if first = [] then c.broken else false } ∧
      outcome env size app' (k + 1) rest = some (app, later) ∧ fs = first ++ later := by
  rw [outcome] at accepted
  unfold Conn.dispatch
  match handled : processPacket env c.app (packet.drop mysqlHeaderSize) with
  | none =>
    rw [handled] at accepted
    cases accepted
  | some (app', .answered) =>
    rw [handled] at accepted
    exact ⟨app', [], fs, by simp, accepted, rfl⟩
  | some (app', .forwarded layer database) =>
    rw [handled] at accepted
    dsimp only at accepted ⊢
    split_ifs at accepted with large
    obtain ⟨last, found, same⟩ := Option.map_eq_some_iff.mp accepted
    cases same
    refine ⟨app', [dtcFrame (env.msgId k) layer database packet], last.2, ?_, found, rfl⟩
    have buffer : (packet ++ more).take (0 + packet.length) = packet := by
      rw [Nat.zero_add, take_left]
    simp [Nat.le_of_not_lt large]

/-- Whole packets in a fresh message are taken out one by one. -/
theorem parseLoop_frames {frames : List Frame} (mysql : ∀ p ∈ frames, p.kind = .mysql)
    (some_ : frames ≠ []) {c : Conn} (intact : c.broken = false) {k : Nat}
    (messages : c.messages = k + 1)
    (accepted : outcome env size c.app k (frames.map Frame.bytes) = some (app, fs)) :
    c.parseLoop env size ⟨k, [], bytesOf frames, 0⟩ =
      { c with
        rmsg := none
        messages := k + frames.length
        app := app
        recognised := c.recognised ++ frames.map Frame.bytes
        forwarded := c.forwarded ++ fs } := by
  induction frames generalizing c k fs with
  | nil => exact absurd rfl some_
  | cons p frames ih =>
    have parsed := myParseReq_frame size (mysql p mem_cons_self) (bytesOf frames)
    obtain ⟨app', first, later, dispatched, rest, rfl⟩ := dispatch_frame (bytesOf frames) accepted
    have unbroken : (if first = [] then c.broken else false) = false := by simp [intact]
    rw [unbroken] at dispatched
    rw [bytesOf_cons, parseLoop_ok c parsed, dispatched]
    rw [if_neg (by simp), Nat.zero_add, drop_left, length_append]
    cases frames with
    | nil =>
      have done : later = [] ∧ app = app' := by
        cases rest
        exact ⟨rfl, rfl⟩
      obtain ⟨rfl, rfl⟩ := done
      simp [messages, intact]
    | cons q frames =>
      have long := q.length_bytes_pos
      rw [if_neg (by rw [bytesOf_cons, length_append]; omega)]
      have next := ih (fun p' mem => mysql p' (mem_cons_of_mem p mem)) (cons_ne_nil _ _)
        (c := { c with
          app := app'
          recognised := c.recognised ++ [p.bytes]
          forwarded := c.forwarded ++ first
          broken := false
          messages := c.messages + 1 }) rfl (k := k + 1) (by rw [messages]) rest
      rw [← messages] at next
      rw [next, messages]
      simp [intact, append_assoc, Nat.add_assoc, Nat.add_comm]

end Loop

section Runs
variable (env : Env) (size : Nat) (stream : List Frame)

/-- The bytes a read of at most `n` brings into an empty buffer. -/
def Conn.arriving (c : Conn) (n : Nat) : List UInt8 := c.unread.take (min n size)

/-- The read brings whole packets, which are accepted and fit. -/
def Conn.WholePackets (c : Conn) (n : Nat) : Prop :=
  ∃ j, c.arriving size n = bytesOf ((stream.drop c.recognised.length).take j) ∧
    Accepted env size c.app (((stream.drop c.recognised.length).take j).map Frame.bytes)

/-- The agent as a machine; it gives no replies. -/
def Conn.step (c : Conn) (n : Nat) : Unit × Conn := ((), c.msgRecvChain env size n)

/-- Between two reads of whole packets. -/
structure Conn.Idle (app : App) (c : Conn) : Prop where
  intact : c.broken = false
  message : c.rmsg = none ∧ c.messages = c.recognised.length ∨
    c.rmsg = some ⟨c.recognised.length, [], [], 0⟩ ∧ c.messages = c.recognised.length + 1
  unread : c.unread = bytesOf (stream.drop c.recognised.length)
  recognised : c.recognised = (stream.take c.recognised.length).map Frame.bytes
  forwarded : outcome env size app 0 c.recognised = some (c.app, c.forwarded)

variable {env size stream}

theorem recvNext_idle (room : 0 < size) {c : Conn} (idle : c.Idle env size stream app) :
    c.recvNext size = ({ c with messages := c.recognised.length + 1 },
      ⟨c.recognised.length, [], [], 0⟩) := by
  have notFull : ¬ ([] : List UInt8).length = size := by
    rw [length_nil]
    omega
  obtain ⟨unread, rmsg, messages, app', recognised, forwarded, broken⟩ := c
  rcases idle.message with ⟨none_, count⟩ | ⟨same, count⟩
  · simp only at none_ count
    subst none_ count
    rfl
  · simp only at same count
    subst same count
    exact if_neg notFull

theorem Conn.Idle.step (mysql : ∀ p ∈ stream, p.kind = .mysql) (room : 0 < size) {c : Conn}
    (idle : c.Idle env size stream app) {n : Nat} (whole : c.WholePackets env size stream n) :
    (c.msgRecvChain env size n).Idle env size stream app := by
  obtain ⟨j, bytes, accepted⟩ := whole
  have next := recvNext_idle room idle
  unfold msgRecvChain
  rw [if_neg (by rw [idle.intact]; decide), next]
  dsimp only
  rw [length_nil, Nat.sub_zero]
  unfold arriving at bytes
  rw [bytes]
  generalize frames_ : (stream.drop c.recognised.length).take j = frames at bytes accepted ⊢
  obtain ⟨⟨app', fs⟩, outcome_⟩ := accepted.outcome env size c.recognised.length
  split_ifs with nothing
  · exact { idle with message := .inr ⟨rfl, rfl⟩ }
  · have some_ : frames ≠ [] := by
      rintro rfl
      exact nothing rfl
    have taken_ : (stream.drop c.recognised.length).take frames.length = frames := by
      rw [← frames_, length_take, take_eq_take_iff]
      omega
    have mysqlFrames : ∀ p ∈ frames, p.kind = .mysql := fun p mem =>
      mysql p (mem_of_mem_drop (mem_of_mem_take (frames_ ▸ mem)))
    rw [nil_append, parseLoop_frames (c := { c with
      unread := c.unread.drop (min n size), messages := c.recognised.length + 1 })
      mysqlFrames some_ idle.intact rfl outcome_]
    have count : (c.recognised ++ frames.map Frame.bytes).length =
        c.recognised.length + frames.length := by
      rw [length_append, length_map]
    have later : stream.drop (c.recognised.length + frames.length) =
        (stream.drop c.recognised.length).drop frames.length := (drop_drop).symm
    refine ⟨idle.intact, .inl ⟨rfl, count.symm⟩, ?_, ?_, ?_⟩
    · dsimp only
      have split := idle.unread
      rw [← take_append_drop (min n size) c.unread, bytes,
        ← take_append_drop frames.length (stream.drop c.recognised.length), taken_,
        bytesOf_append] at split
      rw [count, later]
      exact append_cancel_left split
    · dsimp only
      rw [count, take_add, map_append, taken_, ← idle.recognised]
    · dsimp only
      rw [outcome_append, idle.forwarded, Option.bind_some, Nat.zero_add, outcome_]
      rfl

/-- For reads that bring whole packets, each accepted and small enough for a buffer, the agent
recognises the packets of the stream one by one, and all of them when all bytes are read. It
forwards each query as a header with the length of the whole, the name of the database and the
bytes of the packet, and nothing else. -/
theorem forwarded_frames (env : Env) {size : Nat} (room : 0 < size) (bound : size < 2 ^ 32)
    (app : App) (stream : List Frame) (mysql : ∀ p ∈ stream, p.kind = .mysql) (reads : List Nat)
    (whole : Admitted (Conn.WholePackets env size stream) (Conn.step env size)
      (.initial app (bytesOf stream)) reads) :
    let c := final (Conn.step env size) (.initial app (bytesOf stream)) reads
    (∃ k, c.recognised = (stream.take k).map Frame.bytes) ∧
      outcome env size app 0 c.recognised = some (c.app, c.forwarded) ∧
      (∀ f ∈ c.forwarded, packetLenV2 f = f.length ∧
        ∃ p ∈ stream, ∃ id layer database, f = dtcFrame id layer database p.bytes) ∧
      (c.unread = [] → c.recognised = stream.map Frame.bytes) := by
  have start : (Conn.initial app (bytesOf stream)).Idle env size stream app :=
    ⟨rfl, .inl ⟨rfl, rfl⟩, rfl, rfl, rfl⟩
  have idle := final_invariant (Conn.Idle env size stream app)
    (fun _ _ idle whole => Conn.Idle.step mysql room idle whole) start whole
  intro c
  refine ⟨⟨_, idle.recognised⟩, idle.forwarded, fun f mem => ?_, fun all => ?_⟩
  · obtain ⟨fits, packet, inside, id, layer, database, rfl⟩ := mem_outcome env size idle.forwarded f mem
    rw [idle.recognised] at inside
    obtain ⟨p, taken, rfl⟩ := mem_map.mp inside
    exact ⟨packetLenV2_dtcFrame (by omega), p, mem_of_mem_take taken, id, layer, database, rfl⟩
  have rest : stream.drop c.recognised.length = [] := by
    have unread := idle.unread
    rw [all] at unread
    cases frames : stream.drop c.recognised.length with
    | nil => rfl
    | cons p frames' =>
      rw [frames] at unread
      have long := p.length_bytes_pos
      have lengths := congrArg length unread
      rw [bytesOf_cons, length_append, length_nil] at lengths
      omega
  have complete := take_append_drop c.recognised.length stream
  rw [rest, append_nil] at complete
  have recognised := idle.recognised
  rwa [complete] at recognised

/-- Every query is routed to layer 1. -/
def sampleEnv : Env where
  route _ _ := some 1
  fragment _ _ := true
  msgId n := n

/-- A login and a query, read at once. -/
theorem forwarded_frames_sample :
    let c := final (Conn.step sampleEnv 64) (.initial ⟨.loggingIn, [100, 98, 0]⟩
      (bytesOf [mysqlFrame [0] (by decide), mysqlFrame [3, 65] (by decide)])) [11]
    (∃ k, c.recognised = ([mysqlFrame [0] (by decide), mysqlFrame [3, 65] (by decide)].take k).map
      Frame.bytes) ∧
      outcome sampleEnv 64 ⟨.loggingIn, [100, 98, 0]⟩ 0 c.recognised = some (c.app, c.forwarded) ∧
      (∀ f ∈ c.forwarded, packetLenV2 f = f.length ∧
        ∃ p ∈ [mysqlFrame [0] (by decide), mysqlFrame [3, 65] (by decide)],
          ∃ id layer database, f = dtcFrame id layer database p.bytes) ∧
      (c.unread = [] → c.recognised =
        [mysqlFrame [0] (by decide), mysqlFrame [3, 65] (by decide)].map Frame.bytes) :=
  forwarded_frames sampleEnv (by decide) (by decide) ⟨.loggingIn, [100, 98, 0]⟩
    [mysqlFrame [0] (by decide), mysqlFrame [3, 65] (by decide)] (by simp [mysqlFrame]) [11]
    ⟨⟨2, by decide +kernel, by decide, trivial⟩, trivial⟩

/-- A query that arrives in two reads is not recognised although all its bytes are read, and a
query that fills its buffer overruns the one it is copied to. -/
theorem agent_does_not_forward :
    (final (Conn.step sampleEnv 64) (.initial ⟨.loggedIn, []⟩
        (bytesOf [mysqlFrame [3, 65] (by decide)])) [5, 1]).unread = [] ∧
    (final (Conn.step sampleEnv 64) (.initial ⟨.loggedIn, []⟩
        (bytesOf [mysqlFrame [3, 65] (by decide)])) [5, 1]).recognised = [] ∧
    (final (Conn.step sampleEnv 6) (.initial ⟨.loggedIn, []⟩
        (bytesOf [mysqlFrame [3, 65] (by decide)])) [6]).broken = true := by
  decide +kernel

end Runs

end Dtc.Agent
