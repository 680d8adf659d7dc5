import Dtc.Library.Machine

/-!
# A connection to a database helper

`ConnectorClient` is a state machine over one socket. It sends one request, waits for the
reply, answers the job and goes back to the free list of its group. Two requests of its own
go over the same socket: the detection of the helper after connecting and the reload of its
configuration. A third one, the check, is sent while a job is attached: when the outcome of a
write is in doubt, the data of its key are read.

The outcomes of the system calls are part of the events. Which events the poller and the timer
lists would hold back is not modelled, every event may come at any time.
-/

namespace Dtc.Connector

def ecBadFieldName : Int := 2015
def ecExtraSectionData : Int := 2011
def ecBadSocket : Int := 2027
def ecServerError : Int := 2033
def ecUpstreamError : Int := 2034

/-- `ER_ERROR_ON_WRITE`, `ER_OUTOFMEMORY`, `ER_UNKNOWN_COM_ERROR` and `ER_SERVER_SHUTDOWN`, as
result codes of a job. -/
def doubtfulCodes : List Int := [-1026, -1037, -1047, -1053]

inductive HelperState
  | disconnected
  | connecting
  | idle
  | recvRep
  | sendReq
  | sendVerify
  | recvVerify
  | sendNotifyReloadConfig
  | recvNotifyReloadConfig
  | sendNotifyCheck
  | recvNotifyCheck
  deriving DecidableEq, Repr

/-- What is asked over the connection. -/
inductive Request
  | detect
  | reloadConfig
  | forward (id : Nat)
  | check (of : Request)
  deriving DecidableEq, Repr

structure ResultInfo where
  code : Int
  errorFrom : String
  errorMessage : String
  deriving DecidableEq, Repr

namespace ResultInfo

def empty : ResultInfo := ⟨0, "", ""⟩

/-- A text that is `NULL` leaves the one before. -/
def setError (result : ResultInfo) (err : Int) (source message : Option String) : ResultInfo :=
  ⟨err, source.getD result.errorFrom, message.getD result.errorMessage⟩

end ResultInfo

/-- A `DTCJobOperation`: the request it encodes, which is also the one whose reply it decodes,
and its result. -/
structure Job where
  request : Request
  isGet : Bool
  result : ResultInfo
  deriving DecidableEq, Repr

def Job.setResult (result : ResultInfo) (job : Job) : Job := { job with result := result }

inductive SendResult
  | done
  | moreData
  | error
  deriving DecidableEq, Repr

/-- The outcome of `do_decode`. -/
inductive Decoded
  | fatalError
  | dataError
  | waitData
  | idle
  | done (result : ResultInfo)
  deriving DecidableEq, Repr

/-- The outcome of `connect_server`. -/
inductive Connected
  | connected
  | inProgress
  | failed
  deriving DecidableEq, Repr

/-- The outcomes of the calls made by `reconnect`. -/
structure Reconnect where
  connect : Connected
  attached : Bool
  sent : SendResult
  deriving DecidableEq, Repr

/-- The outcomes of the calls made by `client_notify_helper_check`. -/
structure Check where
  encoded : Bool
  attached : Bool
  sent : SendResult
  applied : Bool
  deriving DecidableEq, Repr

/-- What happened to jobs and replies. A job counts as attached when `process_task` has taken
the connection for it. -/
inductive Entry
  | attached (request : Request)
  | replied (answers into : Request)
  | answered (request : Request) (result : ResultInfo)
  | queued (request : Request)
  deriving DecidableEq, Repr

/-- `packet` is the request that is being sent. `free` says that the connection is on the free
list of its group, `wire` holds the requests handed to the socket that are not answered yet,
oldest first, and `log` the history. -/
structure Client where
  stage : HelperState
  job : Option Job
  checkJob : Option Job
  packet : Option Request
  free : Bool
  wire : List Request
  log : List Entry
  deriving DecidableEq, Repr

namespace Client

def new : Client := ⟨.disconnected, none, none, none, false, [], []⟩

def setError (err : Int) (source message : Option String) (c : Client) : Client :=
  { c with job := c.job.map fun job => job.setResult (job.result.setError err source message) }

/-- The first call of `Send` for a packet: from here on bytes of the request may be on their
way. -/
def begin (request : Request) (c : Client) : Client :=
  { c with packet := some request, wire := c.wire ++ [request] }

/-- A reply is read and decoded by the job of the request `into`. The helper answers in the
order of the requests. -/
def read (into : Request) (c : Client) : Client :=
  match c.wire with
  | [] => c
  | request :: rest => { c with wire := rest, log := c.log ++ [.replied request into] }

/-- The packet and a job of the connection itself are deleted. -/
def deleteJob (c : Client) : Client := { c with packet := none, job := none }

def completeTask (c : Client) : Client :=
  match c.job with
  | none => { c with packet := none }
  | some job =>
    { c with packet := none, job := none, log := c.log ++ [.answered job.request job.result] }

/-- With `ConnectorGroup::queue_back_task`: a job for which the queue has no memory is
answered. -/
def queueBackTask (unshifted : Bool) (c : Client) : Client :=
  match c.job with
  | none => { c with packet := none }
  | some job =>
    { c with
      packet := none
      job := none
      log := c.log ++ [if unshifted then .queued job.request
        else .answered job.request (job.result.setError (-ecServerError) (some "queue_back_task")
          (some "insufficient memory"))] }

/-- `ConnectorGroup::request_completed`. -/
def requestCompleted (c : Client) : Client := { c with free := true }

/-- `ConnectorGroup::connection_reset`. -/
def connectionReset (c : Client) : Client := { c with free := false }

/-- The error `Reset` leaves in a job that has none. -/
def markReset (c : Client) : Client :=
  match c.job with
  | none => c
  | some job =>
    if job.result.code ≥ 0 then
      if c.stage = .recvRep then
        c.setError (-ecUpstreamError) (some "ConnectorGroup::Reset") (some "helper recv error")
      else if c.stage = .sendReq then
        c.setError (-ecServerError) (some "ConnectorGroup::Reset") (some "helper send error")
      else c
    else c

def reset (c : Client) : Client :=
  let c :=
    if c.stage = .sendVerify ∨ c.stage = .recvVerify then c.deleteJob
    else c.markReset.completeTask
  let c := if c.stage = .idle then c.connectionReset else c
  { c with wire := [], stage := .disconnected }

def sendVerify (sent : SendResult) (c : Client) : Client :=
  match sent with
  | .done =>
    { c with packet := none, job := some ⟨.detect, false, .empty⟩, stage := .recvVerify }
  | _ => { c with stage := .sendVerify }

def reconnect (again : Reconnect) (c : Client) : Client :=
  let c := if c.stage = .disconnected then c else c.reset
  match again.connect with
  | .connected =>
    if again.attached then sendVerify again.sent { c.begin .detect with stage := .sendVerify }
    else { c with packet := some .detect }
  | .failed => c
  | .inProgress => { c with stage := .connecting }

/-- `process_task` for a connection taken from the free list, with `attach_task`. The result
of `Send` is only compared with `SendResultDone`. -/
def attachTask (job : Job) (encoded : Bool) (sent : SendResult) (c : Client) : Client :=
  if encoded then
    let c := { c.connectionReset.begin job.request with
      job := some job, log := c.log ++ [Entry.attached job.request] }
    match sent with
    | .done => { c with packet := none, stage := .recvRep }
    | _ => { c with stage := .sendReq }
  else
    { c with log := c.log ++ [Entry.attached job.request,
      Entry.answered job.request (job.result.setError (-ecBadSocket) (some "ForwardRequest") none)] }

def sendNotifyHelperReloadConfig (sent : SendResult) (c : Client) : Client :=
  match sent with
  | .done =>
    { c with
      packet := none
      job := some ⟨.reloadConfig, false, .empty⟩
      stage := .recvNotifyReloadConfig }
  | _ => { c with stage := .sendNotifyReloadConfig }

/-- `process_reload_config` for a connection of the free list, with
`client_notify_helper_reload_config`. -/
def clientNotifyHelperReloadConfig (attached : Bool) (sent : SendResult) (c : Client) : Client :=
  let c := c.connectionReset
  if attached then
    sendNotifyHelperReloadConfig sent
      { c.begin .reloadConfig with stage := .sendNotifyReloadConfig }
  else { c with packet := none }

/-- Functions that return a negative value on failure return `true` for it. -/
def sendNotifyHelperCheck (sent : SendResult) (applied : Bool) (c : Client) : Bool × Client :=
  match sent with
  | .done => (!applied, { c with packet := none, stage := .recvNotifyCheck })
  | _ => (!applied, { c with stage := .sendNotifyCheck })

def clientNotifyHelperCheck (check : Check) (c : Client) : Bool × Client :=
  match c.job with
  | none => (false, c)
  | some job =>
    if job.isGet then (false, c)
    else
      let request := Request.check job.request
      let c := { c with
        checkJob := some { job with request := request, isGet := true }
        packet := some request }
      if !check.encoded then
        (true, c.setError (-ecBadSocket) (some "client_notify_helper_check")
          (some "forward requset failed"))
      else if !check.attached then
        (true, c.setError (-ecBadSocket) (some "client_notify_helper_check")
          (some "check data helper attach poller failed"))
      else
        sendNotifyHelperCheck check.sent check.applied
          { c.begin request with stage := .sendNotifyCheck }

/-- The way out of `recv_response` and `recv_notify_helper_check`. -/
def finish (c : Client) : Client :=
  { c.completeTask.requestCompleted with stage := .idle }

def recvVerify (decoded : Decoded) (applied : Bool) (c : Client) : Bool × Client :=
  match decoded with
  | .waitData | .idle => (false, c)
  | .fatalError | .dataError => (false, c.reset)
  | .done result =>
    let c := c.read .detect
    if result.code = -ecExtraSectionData ∨ result.code = -ecBadFieldName then
      (!applied, { c with job := none, stage := .idle }.requestCompleted)
    else (false, c.reset)

def recvNotifyHelperReloadConfig (decoded : Decoded) (applied : Bool) (c : Client) :
    Bool × Client :=
  match decoded with
  | .waitData | .idle => (false, c)
  | .fatalError | .dataError => (false, c.reset)
  | .done result =>
    let c := { c with job := c.job.map (Job.setResult result) }
    let c := c.read .reloadConfig
    if result.code = 0 then (!applied, { c with job := none, stage := .idle }.requestCompleted)
    else (false, c.reset)

def recvResponse (enableCheck : Bool) (decoded : Decoded) (check : Check) (c : Client) :
    Bool × Client :=
  match c.job with
  | none => (false, c)
  | some job =>
    match decoded with
    | .waitData | .idle => (false, c)
    | .fatalError =>
      (true, (c.setError (-ecUpstreamError) (some "recv_response")
        (some "decode fatal error from helper")).finish)
    | .dataError =>
      (true, (c.setError (-ecUpstreamError) (some "recv_response")
        (some "decode data error from helper")).finish)
    | .done result =>
      let c := { c with job := some (job.setResult result) }.read job.request
      -- whatever the call returns, the job is answered and the connection released below
      let c :=
        if enableCheck && !job.isGet && result.code ∈ doubtfulCodes then
          (c.clientNotifyHelperCheck check).2
        else c
      (false, c.finish)

def recvNotifyHelperCheck (decoded : Decoded) (c : Client) : Bool × Client :=
  match c.checkJob with
  | none => (false, c)
  | some checkJob =>
    let fail (message : String) (c : Client) : Client :=
      { c.setError (-ecUpstreamError) (some "recv_notify_helper_check") (some message) with
        packet := none, checkJob := none }.finish
    match decoded with
    | .waitData | .idle => (false, c)
    | .fatalError => (true, fail "decode fatal error from helper" c)
    | .dataError => (true, fail "decode data error from helper" c)
    | .done result =>
      let c := c.read checkJob.request
      if result.code = 0 then (false, fail "need check data" c)
      else (false, fail "get check data failed from helper" c)

/-- `SendResultError` is a failure here only. -/
def sendRequest (sent : SendResult) (c : Client) : Bool × Client :=
  match sent with
  | .moreData => (false, c)
  | .done => (false, { c with packet := none, stage := .recvRep })
  | .error => (true, c.setError (-ecServerError) (some "Data source send failed") none)

/-- A handler that failed makes the connection start again. -/
def orReconnect (again : Reconnect) (result : Bool × Client) : Client :=
  if result.1 then result.2.reconnect again else result.2

def inputNotify (enableCheck : Bool) (decoded : Decoded) (check : Check) (applied : Bool)
    (again : Reconnect) (c : Client) : Client :=
  match c.stage with
  | .recvVerify => orReconnect again (c.recvVerify decoded applied)
  | .recvNotifyReloadConfig => orReconnect again (c.recvNotifyHelperReloadConfig decoded applied)
  | .recvNotifyCheck => orReconnect again (c.recvNotifyHelperCheck decoded)
  | .recvRep => orReconnect again (c.recvResponse enableCheck decoded check)
  | .idle => c.reset
  | _ => c

def outputNotify (sent : SendResult) (applied unshifted : Bool) (again : Reconnect) (c : Client) :
    Client :=
  match c.stage with
  | .sendVerify =>
    let c := c.sendVerify sent
    if applied then c else { c with packet := none }.reconnect again
  | .sendNotifyReloadConfig =>
    let c := c.sendNotifyHelperReloadConfig sent
    if applied then c else { c with packet := none }.reconnect again
  | .sendNotifyCheck =>
    let (failed, c) := c.sendNotifyHelperCheck sent applied
    if failed then { c with packet := none }.reconnect again else c
  | .sendReq =>
    let (failed, c) := c.sendRequest sent
    if failed then (c.queueBackTask unshifted).reconnect again else c
  | .connecting => { c.begin .detect with stage := .sendVerify }.sendVerify sent
  | _ => c

/-- The end of a timeout: the job is answered with an error and the connection starts again. -/
def giveUp (again : Reconnect) (c : Client) : Client :=
  ({ c with packet := none, checkJob := none }.setError (-ecUpstreamError)
    (some "ConnectorGroup::Timeout") (some "helper do_execute timeout")).reconnect again

def jobTimerProcedure (enableCheck : Bool) (check : Check) (again : Reconnect) (c : Client) :
    Client :=
  match c.stage with
  | .recvRep =>
    if enableCheck && c.job.any (!·.isGet) then
      let (failed, c) := c.clientNotifyHelperCheck check
      if failed then c.giveUp again else c
    else c.giveUp again
  | .sendNotifyCheck | .recvNotifyCheck => c.giveUp again
  | .sendReq =>
    (c.setError (-ecServerError) (some "ConnectorGroup::Timeout")
      (some "helper send timeout")).reconnect again
  | .disconnected => c.reconnect again
  | .connecting => c.reset
  | .sendVerify | .recvVerify | .sendNotifyReloadConfig | .recvNotifyReloadConfig =>
    c.deleteJob.reconnect again
  | .idle => c

end Client

inductive Event
  | attach (id : Nat) (isGet : Bool) (result : ResultInfo) (encoded : Bool) (sent : SendResult)
  | reloadConfig (attached : Bool) (sent : SendResult)
  | input (decoded : Decoded) (check : Check) (applied : Bool) (again : Reconnect)
  | output (sent : SendResult) (applied unshifted : Bool) (again : Reconnect)
  | hangup
  | timer (check : Check) (again : Reconnect)
  deriving DecidableEq, Repr

/-- The group gives jobs and reloads to connections of its free list only. -/
def step (enableCheck : Bool) (c : Client) : Event → Unit × Client
  | .attach id isGet result encoded sent =>
    ((), if c.free then c.attachTask ⟨.forward id, isGet, result⟩ encoded sent else c)
  | .reloadConfig attached sent =>
    ((), if c.free then c.clientNotifyHelperReloadConfig attached sent else c)
  | .input decoded check applied again =>
    ((), c.inputNotify enableCheck decoded check applied again)
  | .output sent applied unshifted again => ((), c.outputNotify sent applied unshifted again)
  | .hangup => ((), c.reset)
  | .timer check again => ((), c.jobTimerProcedure enableCheck check again)

/-- `do_attach`: the connection is created and connects. -/
def start (again : Reconnect) : Client := Client.new.reconnect again

end Dtc.Connector
