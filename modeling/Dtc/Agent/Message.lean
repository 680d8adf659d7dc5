import Dtc.Agent.Framing

/-!
# The messages of the agent

The agent reads from a client into chains of message buffers of one size and parses the last
buffer of a chain as packets of MySQL. `my_parse_req` takes a packet that is in the buffer as a
whole; otherwise it moves its position to the end of what has arrived, so that the next parse
begins in the middle of a packet. A packet to be forwarded is copied into a fresh buffer behind a
header and the name of the database, without a look at the room there.

Where a query goes is decided by the rule engine; here it is the parameter `route` (`Route` has it),
and `fragment` says whether a key of the query can be used.
-/

namespace Dtc.Agent

open Library.Memory

section Commands

/-- The commands of MySQL by what the agent does with them. The others are refused. -/
inductive ServerCommand
  | initDb
  | query
  | accepted
  | refused
  deriving DecidableEq, Repr

/-- `enum_server_command` -/
def ServerCommand.ofByte (b : UInt8) : ServerCommand :=
  if b = 2 then .initDb
  else if b = 3 then .query
  -- quit, field list, refresh, statistics, process info, process kill, debug, ping, change user,
  -- binlog dump, register slave, set option, binlog dump gtid, reset connection, clone
  else if b ∈ ([1, 4, 7, 9, 10, 12, 13, 14, 17, 18, 21, 27, 30, 31, 32] : List UInt8) then .accepted
  else .refused

inductive Stage
  | unlogin
  | loggingIn
  | switchNativePasswd
  | loggedIn
  deriving DecidableEq, Repr

/-- `AGENT_NEXT_OPERATION` -/
inductive NextOperation
  | forward
  | rspOk
  | rspError
  deriving DecidableEq, Repr

/-- `my_do_command`; the query was routed. -/
def myDoCommand : ServerCommand → NextOperation
  | .query => .forward
  | .initDb | .accepted => .rspOk
  | .refused => .rspError

/-- What the connection knows: its stage, and the array with the name of the database. -/
structure App where
  stage : Stage
  dbname : List UInt8
  deriving DecidableEq, Repr

/-- The name is a C string. -/
def App.database (app : App) : List UInt8 := app.dbname.takeWhile (· ≠ 0)

/-- The rule engine, the use of the key, and the ids of messages. -/
structure Env where
  /-- The layer a query goes to, or none for a query that cannot be routed. -/
  route : List UInt8 → List UInt8 → Option UInt8
  fragment : UInt8 → List UInt8 → Bool
  msgId : Nat → Nat

/-- The bytes 0 and 1 before the text of a command are skipped. -/
def commandText (bytes : List UInt8) : List UInt8 :=
  let bytes := if bytes.head? = some 0 then bytes.tail else bytes
  if bytes.head? = some 1 then bytes.tail else bytes

/-- `my_get_command`: the connection afterwards, the command and its layer. A packet without a
command byte is read past its end, so nothing is known of it. -/
def myGetCommand (env : Env) (app : App) (payload : List UInt8) :
    Option (App × ServerCommand × UInt8) :=
  match payload with
  | [] => none
  | b :: rest =>
    match ServerCommand.ofByte b with
    | .initDb =>
      let p := commandText rest
      if 0 < p.length ∧ p.length < 250 then
        some ({ app with dbname := p ++ app.dbname.drop p.length }, .initDb, 0)
      else some (app, .initDb, 0)
    | .query => (env.route app.database (commandText rest)).map fun layer => (app, .query, layer)
    | command => some (app, command, 0)

/-- What becomes of a packet: it is answered, or forwarded to a layer with a database. -/
inductive Verdict
  | answered
  | forwarded (layer : UInt8) (database : List UInt8)
  deriving DecidableEq, Repr

/-- `my_parse_req` from the packet on, `req_recv_done` and `req_process`. -/
def processPacket (env : Env) (app : App) (payload : List UInt8) : Option (App × Verdict) :=
  match app.stage with
  | .loggedIn =>
    (myGetCommand env app payload).map fun (app, command, layer) =>
      if command = .query ∧ env.fragment layer payload = false then (app, .answered)
      else if myDoCommand command = .forward then (app, .forwarded layer app.database)
      else (app, .answered)
  | .loggingIn | .switchNativePasswd => some ({ app with stage := .loggedIn }, .answered)
  | .unlogin => some (app, .answered)

end Commands

section Buffers

/-- The header of `dtc_header_add` with the database and the packet behind it. -/
def dtcFrame (id : Nat) (layer : UInt8) (database packet : List UInt8) : List UInt8 :=
  [2, 0, layer, UInt8.ofNat database.length] ++
    leBytes 4 (packet.length + headerV2Size + database.length) ++ leBytes 8 id ++ database ++ packet

/-- A message on its way in: what is in its full buffers, its last buffer, and the position of
the parser in there. -/
structure Message where
  number : Nat
  older : List UInt8
  last : List UInt8
  pos : Nat
  deriving DecidableEq, Repr

/-- A connection with the bytes that are still to come and a record of what was done. -/
structure Conn where
  unread : List UInt8
  rmsg : Option Message
  messages : Nat
  app : App
  recognised : List (List UInt8)
  forwarded : List (List UInt8)
  broken : Bool
  deriving DecidableEq, Repr

def Conn.initial (app : App) (stream : List UInt8) : Conn := ⟨stream, none, 0, app, [], [], false⟩

inductive ParseResult
  | ok (packet : List UInt8)
  | again
  | repair
  deriving DecidableEq, Repr

variable (env : Env) (size : Nat)

/-- `my_parse_req` in a buffer of `size` bytes. -/
def myParseReq (last : List UInt8) (pos : Nat) : ParseResult :=
  let rest := last.drop pos
  let incomplete : ParseResult := if last.length = size then .repair else .again
  if rest.length < mysqlHeaderSize then incomplete
  else if rest.length < mysqlHeaderSize + uintTrans3 rest then incomplete
  else .ok (rest.take (mysqlHeaderSize + uintTrans3 rest))

/-- A recognised packet: `dtc_header_add` replaces the last buffer of the message, which holds
everything up to the end of the packet, and overruns a buffer that is too small. -/
def Conn.dispatch (c : Conn) (msg : Message) (packet : List UInt8) : Conn :=
  match processPacket env c.app (packet.drop mysqlHeaderSize) with
  | none => { c with broken := true }
  | some (app, .answered) => { c with app := app, recognised := c.recognised ++ [packet] }
  | some (app, .forwarded layer database) =>
    let buffer := msg.last.take (msg.pos + packet.length)
    { c with
      app := app
      recognised := c.recognised ++ [packet]
      forwarded := c.forwarded ++ [msg.older ++ dtcFrame (env.msgId msg.number) layer database buffer]
      broken := decide (size < headerV2Size + database.length + buffer.length) }

theorem length_packet_pos {last packet : List UInt8} {pos : Nat}
    (parsed : myParseReq size last pos = .ok packet) :
    mysqlHeaderSize ≤ packet.length ∧ pos + packet.length ≤ last.length := by
  unfold myParseReq at parsed
  dsimp only at parsed
  split_ifs at parsed with h₁ h₂ h₃ h₄
  cases parsed
  rw [List.length_take]
  rw [List.length_drop] at h₁ h₃ ⊢
  unfold mysqlHeaderSize at *
  omega

/-- The loop of `msg_recv_chain`: parse, and go on with what is behind the packet in a message of
its own. -/
def Conn.parseLoop (c : Conn) (msg : Message) : Conn :=
  match _parsed : myParseReq size msg.last msg.pos with
  | .again => { c with rmsg := some { msg with pos := msg.last.length } }
  | .repair => { c with rmsg := some { msg with older := msg.older ++ msg.last, last := [], pos := 0 } }
  | .ok packet =>
    let c := c.dispatch env size msg packet
    if c.broken then c
    else if msg.pos + packet.length = msg.last.length then { c with rmsg := none }
    else
      Conn.parseLoop { c with messages := c.messages + 1 }
        ⟨c.messages, [], msg.last.drop (msg.pos + packet.length), 0⟩
termination_by msg.last.length
decreasing_by
  have length := length_packet_pos size _parsed
  rw [List.length_drop]
  unfold mysqlHeaderSize at length
  omega

/-- The message to read into, with room in its last buffer. -/
def Conn.recvNext (c : Conn) : Conn × Message :=
  match c.rmsg with
  | none => ({ c with messages := c.messages + 1 }, ⟨c.messages, [], [], 0⟩)
  | some msg =>
    if msg.last.length = size then (c, { msg with older := msg.older ++ msg.last, last := [], pos := 0 })
    else (c, msg)

/-- `msg_recv_chain`, where the read gives at most `n` bytes. -/
def Conn.msgRecvChain (c : Conn) (n : Nat) : Conn :=
  if c.broken then c
  else
    let (c, msg) := c.recvNext size
    let bytes := c.unread.take (min n (size - msg.last.length))
    if bytes = [] then { c with rmsg := some msg }
    else
      Conn.parseLoop env size { c with unread := c.unread.drop (min n (size - msg.last.length)) }
        { msg with last := msg.last ++ bytes }

end Buffers

end Dtc.Agent
