import Dtc.Connector.Client

/-!
# Requests, replies and jobs of a connection

In every stage the requests that wait for a reply are known: none while the connection is idle
or not connected, the one that was sent otherwise, and the request of the job followed by its
check after a timeout. The replies are decoded by the right job as long as no reply is read in
the last situation, and as long as no check is sent by `recv_response`, which releases the
connection without waiting for the reply.
-/

namespace Dtc.Connector

open Library.Machine Client

def Entry.attaches (request : Request) : Entry → Bool
  | .attached other => other == request
  | _ => false

/-- The job of the request is answered or put back. -/
def Entry.settles (request : Request) : Entry → Bool
  | .answered other _ => other == request
  | .queued other => other == request
  | _ => false

/-- One if the job of the request is attached. -/
def held (job : Option Job) (request : Request) : Nat :=
  if job.any (·.request == request) then 1 else 0

/-- Replies went to the job they answer, and each time a job was attached it has been answered
or put back once, unless it still is attached. -/
structure Tracked (log : List Entry) (job : Option Job) : Prop where
  paired : ∀ answers into, .replied answers into ∈ log → answers = into
  settled : ∀ id, log.countP (Entry.attaches (.forward id)) =
    log.countP (Entry.settles (.forward id)) + held job (.forward id)

/-- What is claimed of a connection. -/
structure Correct (c : Client) : Prop where
  tracked : Tracked c.log c.job
  free : c.free = true → c.wire = []

section Tracked
variable {log : List Entry} {job : Job} {o : Option Job}

theorem held_some (job : Job) (request : Request) :
    held (some job) request = if job.request = request then 1 else 0 := by
  simp [held]

@[simp] theorem held_none (request : Request) : held none request = 0 := rfl

/-- An entry that is not a reply adds to the two counts. -/
theorem Tracked.append (tracked : Tracked log o) {entry : Entry} {o' : Option Job}
    (noReply : ∀ answers into, entry = .replied answers into → answers = into)
    (counts : ∀ id, (if entry.attaches (.forward id) then 1 else 0) + held o (.forward id) =
      (if entry.settles (.forward id) then 1 else 0) + held o' (.forward id)) :
    Tracked (log ++ [entry]) o' := by
  constructor
  · intro answers into mem
    rcases List.mem_append.mp mem with old | new
    · exact tracked.paired answers into old
    · exact noReply answers into (List.mem_singleton.mp new).symm
  · intro id
    have before := tracked.settled id
    have change := counts id
    simp only [List.countP_append, List.countP_singleton]
    omega

theorem Tracked.answered (tracked : Tracked log (some job)) (result : ResultInfo) :
    Tracked (log ++ [.answered job.request result]) none := by
  refine tracked.append (by simp) fun id => ?_
  simp [Entry.attaches, Entry.settles, held_some]

theorem Tracked.queued (tracked : Tracked log (some job)) :
    Tracked (log ++ [.queued job.request]) none := by
  refine tracked.append (by simp) fun id => ?_
  simp [Entry.attaches, Entry.settles, held_some]

theorem Tracked.attached (tracked : Tracked log none) (job : Job) :
    Tracked (log ++ [.attached job.request]) (some job) := by
  refine tracked.append (by simp) fun id => ?_
  simp [Entry.attaches, Entry.settles, held_some]

theorem Tracked.replied (tracked : Tracked log o) (request : Request) :
    Tracked (log ++ [.replied request request]) o := by
  refine tracked.append (by simp) fun id => ?_
  simp [Entry.attaches, Entry.settles]

/-- Only the requests of the attached jobs count. -/
theorem Tracked.congr (tracked : Tracked log o) {o' : Option Job}
    (same : ∀ id, held o' (.forward id) = held o (.forward id)) : Tracked log o' := by
  refine ⟨tracked.paired, fun id => ?_⟩
  rw [same id]
  exact tracked.settled id

theorem held_map (o : Option Job) (f : Job → ResultInfo) (request : Request) :
    held (o.map fun job => job.setResult (f job)) request = held o request := by
  cases o <;> rfl

end Tracked

namespace Client
variable (c : Client)

/-- No job is attached, and `wire` waits for replies. -/
def Quiet (wire : List Request) : Prop := c.free = false ∧ c.job = none ∧ c.wire = wire

/-- The job of a request is attached, and `wire` waits for replies. -/
def Busy (request : Request) (wire : List Request) : Prop :=
  c.free = false ∧ (∃ job, c.job = some job ∧ job.request = request) ∧ c.wire = wire

/-- What waits for a reply in each stage. -/
def Waiting : Prop :=
  match c.stage with
  | .disconnected | .connecting => c.Quiet []
  | .idle => c.job = none ∧ c.wire = []
  | .sendVerify => c.Quiet [.detect]
  | .recvVerify => c.Busy .detect [.detect]
  | .sendNotifyReloadConfig => c.Quiet [.reloadConfig]
  | .recvNotifyReloadConfig => c.Busy .reloadConfig [.reloadConfig]
  | .recvRep | .sendReq => ∃ id, c.Busy (.forward id) [.forward id]
  | .sendNotifyCheck | .recvNotifyCheck =>
    ∃ id, c.Busy (.forward id) [.forward id, .check (.forward id)] ∧
      ∃ checkJob, c.checkJob = some checkJob ∧ checkJob.request = .check (.forward id)

end Client

structure Inv (c : Client) : Prop where
  tracked : Tracked c.log c.job
  waiting : c.Waiting

/-- What `Reset` and `reconnect` need. -/
structure Resettable (c : Client) : Prop where
  tracked : Tracked c.log c.job
  free : c.free = true → c.stage = .idle
  own : c.stage = .sendVerify ∨ c.stage = .recvVerify → Tracked c.log none
  closed : c.stage = .disconnected → c.Quiet []

section Functions
variable {c : Client}

/-- Errors and results are written into the attached job and change nothing else. -/
theorem Tracked.setResult {f : Job → ResultInfo} (tracked : Tracked c.log c.job) :
    Tracked c.log (c.job.map fun job => job.setResult (f job)) :=
  tracked.congr fun id => held_map c.job f (.forward id)

theorem Tracked.setError (tracked : Tracked c.log c.job) (err : Int)
    (source message : Option String) : Tracked c.log (c.setError err source message).job :=
  tracked.setResult

theorem Client.Quiet.setError {wire : List Request} (quiet : c.Quiet wire) (err : Int)
    (source message : Option String) : (c.setError err source message).Quiet wire :=
  ⟨quiet.1, by simp [Client.setError, quiet.2.1], quiet.2.2⟩

theorem Client.markReset_cases : c.markReset = c ∨
    ∃ err source message, c.markReset = c.setError err source message := by
  unfold markReset
  cases c.job with
  | none => exact .inl rfl
  | some job =>
    dsimp only
    split_ifs
    · exact .inr ⟨_, _, _, rfl⟩
    · exact .inr ⟨_, _, _, rfl⟩
    · exact .inl rfl
    · exact .inl rfl

theorem Client.completeTask_spec (c : Client) : c.completeTask.stage = c.stage ∧
    c.completeTask.free = c.free ∧ c.completeTask.wire = c.wire ∧ c.completeTask.job = none := by
  unfold completeTask
  cases c.job with
  | none => exact ⟨rfl, rfl, rfl, rfl⟩
  | some job => exact ⟨rfl, rfl, rfl, rfl⟩

theorem Client.queueBackTask_spec (c : Client) (unshifted : Bool) :
    (c.queueBackTask unshifted).stage = c.stage ∧ (c.queueBackTask unshifted).free = c.free ∧
      (c.queueBackTask unshifted).wire = c.wire ∧ (c.queueBackTask unshifted).job = none := by
  unfold queueBackTask
  cases c.job with
  | none => exact ⟨rfl, rfl, rfl, rfl⟩
  | some job => exact ⟨rfl, rfl, rfl, rfl⟩

theorem Tracked.completeTask (tracked : Tracked c.log c.job) : Tracked c.completeTask.log none := by
  unfold Client.completeTask
  cases job : c.job with
  | none => rwa [job] at tracked
  | some job' =>
    rw [job] at tracked
    exact tracked.answered _

theorem Tracked.queueBackTask (tracked : Tracked c.log c.job) (unshifted : Bool) :
    Tracked (c.queueBackTask unshifted).log none := by
  unfold Client.queueBackTask
  cases job : c.job with
  | none => rwa [job] at tracked
  | some job' =>
    rw [job] at tracked
    cases unshifted with
    | true => exact tracked.queued
    | false => exact tracked.answered _

/-- A connection whose `Reset` is done. -/
structure Closed (c : Client) : Prop where
  stage : c.stage = .disconnected
  tracked : Tracked c.log none
  quiet : c.Quiet []

theorem Closed.inv (closed : Closed c) : Inv c := by
  refine ⟨?_, ?_⟩
  · rw [closed.quiet.2.1]
    exact closed.tracked
  · rw [Waiting, closed.stage]
    exact closed.quiet

theorem Inv.of_idle (stage : c.stage = .idle) (tracked : Tracked c.log none) (job : c.job = none)
    (wire : c.wire = []) : Inv c := by
  refine ⟨job ▸ tracked, ?_⟩
  rw [Waiting, stage]
  exact ⟨job, wire⟩

theorem Resettable.reset (ok : Resettable c) : Closed c.reset := by
  unfold Client.reset
  by_cases verify : c.stage = .sendVerify ∨ c.stage = .recvVerify
  · have notIdle : c.stage ≠ .idle := by rcases verify with h | h <;> simp [h]
    have notFree : c.free = false := by
      by_contra free
      exact notIdle (ok.free (by simpa using free))
    simp only [verify, if_true, deleteJob, notIdle, if_false]
    exact ⟨rfl, ok.own verify, notFree, rfl, rfl⟩
  · simp only [verify, if_false]
    have marked : Tracked c.markReset.log c.markReset.job ∧ c.markReset.stage = c.stage ∧
        c.markReset.free = c.free := by
      rcases markReset_cases (c := c) with same | ⟨err, source, message, same⟩
      · rw [same]
        exact ⟨ok.tracked, rfl, rfl⟩
      · rw [same]
        exact ⟨ok.tracked.setError err source message, rfl, rfl⟩
    obtain ⟨tracked, stage, free⟩ := marked
    obtain ⟨stage', free', -, job⟩ := c.markReset.completeTask_spec
    rw [stage', stage]
    split_ifs with idle
    · exact ⟨rfl, tracked.completeTask, rfl, job, rfl⟩
    · refine ⟨rfl, tracked.completeTask, ?_, job, rfl⟩
      show c.markReset.completeTask.free = false
      rw [free', free]
      by_contra isFree
      exact idle (ok.free (by simpa using isFree))

theorem Inv.sendVerify (tracked : Tracked c.log none) (quiet : c.Quiet [.detect])
    (sent : SendResult) : Inv (c.sendVerify sent) := by
  obtain ⟨free, job, wire⟩ := quiet
  cases sent with
  | done =>
    refine ⟨tracked.congr fun id => ?_, free, ⟨_, rfl, rfl⟩, wire⟩
    simp [Client.sendVerify, held_some]
  | moreData | error => exact ⟨job ▸ tracked, free, job, wire⟩

theorem Inv.sendReload (tracked : Tracked c.log none) (quiet : c.Quiet [.reloadConfig])
    (sent : SendResult) : Inv (c.sendNotifyHelperReloadConfig sent) := by
  obtain ⟨free, job, wire⟩ := quiet
  cases sent with
  | done =>
    refine ⟨tracked.congr fun id => ?_, free, ⟨_, rfl, rfl⟩, wire⟩
    simp [sendNotifyHelperReloadConfig, held_some]
  | moreData | error => exact ⟨job ▸ tracked, free, job, wire⟩

/-- A request begun on a connection without any. -/
theorem Client.Quiet.begin (quiet : c.Quiet []) (request : Request) :
    (c.begin request).Quiet [request] :=
  ⟨quiet.1, quiet.2.1, by simp [Client.begin, quiet.2.2]⟩

theorem Resettable.reconnect (ok : Resettable c) (again : Reconnect) : Inv (c.reconnect again) := by
  have closed : Closed (if c.stage = .disconnected then c else c.reset) := by
    split_ifs with disconnected
    · have quiet := ok.closed disconnected
      refine ⟨disconnected, ?_, quiet⟩
      have tracked := ok.tracked
      rwa [quiet.2.1] at tracked
    · exact ok.reset
  unfold Client.reconnect
  generalize (if c.stage = .disconnected then c else c.reset) = d at closed
  obtain ⟨stage, tracked, quiet⟩ := closed
  cases again.connect with
  | connected =>
    split_ifs
    · have quiet' := quiet.begin .detect
      exact Inv.sendVerify (c := { d.begin .detect with stage := .sendVerify }) tracked quiet' _
    · exact Closed.inv ⟨stage, tracked, quiet⟩
  | inProgress =>
    refine ⟨?_, quiet⟩
    show Tracked d.log d.job
    rwa [quiet.2.1]
  | failed => exact Closed.inv ⟨stage, tracked, quiet⟩

theorem Inv.correct (inv : Inv c) : Correct c := by
  refine ⟨inv.tracked, fun free => ?_⟩
  have waiting := inv.waiting
  unfold Waiting at waiting
  cases stage : c.stage <;> simp only [stage, Quiet, Busy, free] at waiting <;> simp_all

theorem Inv.resettable (inv : Inv c) : Resettable c := by
  have waiting := inv.waiting
  unfold Waiting at waiting
  refine ⟨inv.tracked, fun free => ?_, ?_, fun disconnected => ?_⟩
  · cases stage : c.stage <;> simp only [stage, Quiet, Busy, free] at waiting <;> simp_all
  · rintro (verify | verify)
    · simp only [verify] at waiting
      exact waiting.2.1 ▸ inv.tracked
    · simp only [verify] at waiting
      obtain ⟨-, ⟨job, isJob, request⟩, -⟩ := waiting
      exact inv.tracked.congr fun id => by simp [isJob, held_some, request]
  · simpa only [disconnected] using waiting

theorem Inv.free_idle (inv : Inv c) (free : c.free = true) :
    c.stage = .idle ∧ c.job = none ∧ c.wire = [] := by
  have idle := inv.resettable.free free
  have waiting := inv.waiting
  simp only [Waiting, idle] at waiting
  exact ⟨idle, waiting⟩

section
variable (ok : Resettable c)
include ok

theorem Resettable.deleteJob (own : Tracked c.log none) : Resettable c.deleteJob :=
  ⟨own, ok.free, fun _ => own, fun disconnected => ⟨(ok.closed disconnected).1, rfl,
    (ok.closed disconnected).2.2⟩⟩

theorem Resettable.packet (packet : Option Request) : Resettable { c with packet := packet } :=
  { ok with }

theorem Resettable.queueBackTask (unshifted : Bool) : Resettable (c.queueBackTask unshifted) := by
  obtain ⟨stage, free, wire, job⟩ := c.queueBackTask_spec unshifted
  have tracked := ok.tracked.queueBackTask unshifted
  refine ⟨?_, ?_, fun _ => tracked, ?_⟩
  · rwa [job]
  · rw [free, stage]
    exact ok.free
  · rw [stage]
    intro disconnected
    have quiet := ok.closed disconnected
    exact ⟨free.trans quiet.1, job, wire.trans quiet.2.2⟩

theorem Resettable.setError (err : Int) (source message : Option String) :
    Resettable (c.setError err source message) :=
  ⟨ok.tracked.setError err source message, ok.free, ok.own,
    fun disconnected => (ok.closed disconnected).setError err source message⟩

end

theorem Client.read_cons {r : Request} {rest : List Request} (wire : c.wire = r :: rest)
    (into : Request) :
    c.read into = { c with wire := rest, log := c.log ++ [.replied r into] } := by
  simp [read, wire]

theorem Resettable.finish (tracked : Tracked c.log c.job) : Resettable c.finish := by
  obtain ⟨-, -, -, job⟩ := c.completeTask_spec
  refine ⟨?_, fun _ => rfl, fun verify => ?_, fun closed => ?_⟩
  · show Tracked c.completeTask.log c.completeTask.job
    rw [job]
    exact tracked.completeTask
  · rcases verify with h | h <;> cases h
  · cases closed

/-- The connection is released with nothing left to wait for. -/
theorem Inv.finish (tracked : Tracked c.log c.job) (wire : c.wire = []) : Inv c.finish := by
  obtain ⟨-, -, wire', job⟩ := c.completeTask_spec
  exact ⟨(Resettable.finish tracked).tracked, job, wire'.trans wire⟩

end Functions

variable {check : Check}

section Handlers
variable {c : Client}

theorem Inv.attachTask (inv : Inv c) (free : c.free = true) (id : Nat) (isGet : Bool)
    (result : ResultInfo) (encoded : Bool) (sent : SendResult) :
    Inv (c.attachTask ⟨.forward id, isGet, result⟩ encoded sent) := by
  obtain ⟨idle, job, wire⟩ := inv.free_idle free
  have tracked : Tracked c.log none := job ▸ inv.tracked
  cases encoded with
  | true =>
    have busy : ∀ d : Client, d.free = false → d.job = some ⟨.forward id, isGet, result⟩ →
        d.wire = [.forward id] → d.Busy (.forward id) [.forward id] :=
      fun d free job wire => ⟨free, ⟨_, job, rfl⟩, wire⟩
    have wire' : c.wire ++ [.forward id] = [Request.forward id] := by rw [wire, List.nil_append]
    cases sent with
    | done | moreData | error => exact ⟨tracked.attached _, id, busy _ rfl rfl wire'⟩
  | false =>
    have attached : Tracked (c.log ++ [.attached (.forward id)])
      (some ⟨.forward id, isGet, result⟩) := tracked.attached ⟨.forward id, isGet, result⟩
    have answered := attached.answered (result.setError (-ecBadSocket) (some "ForwardRequest") none)
    rw [List.append_assoc] at answered
    exact Inv.of_idle idle answered job wire

theorem Inv.reloadConfig (inv : Inv c) (free : c.free = true) (attached : Bool)
    (sent : SendResult) : Inv (c.clientNotifyHelperReloadConfig attached sent) := by
  obtain ⟨idle, job, wire⟩ := inv.free_idle free
  have tracked : Tracked c.log none := job ▸ inv.tracked
  have quiet : c.connectionReset.Quiet [] := ⟨rfl, job, wire⟩
  cases attached with
  | true =>
    have quiet' := quiet.begin .reloadConfig
    exact Inv.sendReload
      (c := { c.connectionReset.begin .reloadConfig with stage := .sendNotifyReloadConfig })
      tracked quiet' sent
  | false => exact Inv.of_idle idle tracked job wire

theorem Inv.orReconnect {failed : Bool} (inv : Inv c) (again : Reconnect) :
    Inv (orReconnect again (failed, c)) := by
  cases failed with
  | true => exact inv.resettable.reconnect again
  | false => exact inv

theorem Inv.recvVerify (inv : Inv c) (stage : c.stage = .recvVerify) (decoded : Decoded)
    (applied : Bool) (again : Reconnect) :
    Inv (Client.orReconnect again (c.recvVerify decoded applied)) := by
  have own := inv.resettable.own (.inr stage)
  have waiting := inv.waiting
  simp only [Waiting, stage] at waiting
  obtain ⟨free, -, wire⟩ := waiting
  cases decoded with
  | waitData | idle => exact inv
  | fatalError | dataError => exact inv.resettable.reset.inv
  | done result =>
    simp only [Client.recvVerify, Client.read_cons wire]
    split_ifs
    · apply Inv.orReconnect
      exact Inv.of_idle rfl (own.replied .detect) rfl rfl
    · refine (Resettable.reset ⟨inv.tracked.replied .detect, fun isFree => ?_,
        fun _ => own.replied .detect, fun closed => ?_⟩).inv
      · exact absurd (free.symm.trans isFree) (by decide)
      · exact absurd (stage.symm.trans closed) (by decide)

theorem Inv.recvReload (inv : Inv c) (stage : c.stage = .recvNotifyReloadConfig)
    (decoded : Decoded) (applied : Bool) (again : Reconnect) :
    Inv (Client.orReconnect again (c.recvNotifyHelperReloadConfig decoded applied)) := by
  have waiting := inv.waiting
  simp only [Waiting, stage] at waiting
  obtain ⟨free, ⟨job, isJob, request⟩, wire⟩ := waiting
  cases decoded with
  | waitData | idle => exact inv
  | fatalError | dataError => exact inv.resettable.reset.inv
  | done result =>
    have wire' : ({ c with job := c.job.map (Job.setResult result) } : Client).wire =
      [.reloadConfig] := wire
    simp only [recvNotifyHelperReloadConfig, read_cons wire']
    have replied := inv.tracked.replied .reloadConfig
    split_ifs
    · apply Inv.orReconnect
      refine Inv.of_idle rfl (replied.congr fun id => ?_) rfl rfl
      simp [isJob, held_some, request]
    · refine (Resettable.reset ⟨replied.congr fun id => ?_, fun isFree => ?_, fun verify => ?_,
        fun closed => ?_⟩).inv
      · simp [isJob, held_some, Job.setResult]
      · exact absurd (free.symm.trans isFree) (by decide)
      · rcases verify with h | h <;> exact absurd (stage.symm.trans h) (by decide)
      · exact absurd (stage.symm.trans closed) (by decide)

/-- A check that cannot be encoded or polled leaves an error in the job. -/
theorem Client.check_refused {job : Job} (isJob : c.job = some job) (write : job.isGet = false)
    (refused : ¬ (check.encoded = true ∧ check.attached = true)) :
    ∃ message, c.clientNotifyHelperCheck check =
      (true, ({ c with
        checkJob := some { job with request := .check job.request, isGet := true }
        packet := some (.check job.request) } : Client).setError (-ecBadSocket)
          (some "client_notify_helper_check") (some message)) := by
  simp only [clientNotifyHelperCheck, isJob, write]
  cases encoded : check.encoded with
  | false => exact ⟨_, rfl⟩
  | true =>
    have attached : check.attached = false := by simpa [encoded] using refused
    simp only [attached]
    exact ⟨_, rfl⟩

/-- A check was sent. -/
structure CheckSent (c d : Client) (request : Request) : Prop where
  job : d.job = c.job
  free : d.free = c.free
  log : d.log = c.log
  wire : d.wire = c.wire ++ [.check request]
  stage : d.stage = .sendNotifyCheck ∨ d.stage = .recvNotifyCheck
  checkJob : ∃ checkJob, d.checkJob = some checkJob ∧ checkJob.request = .check request

theorem Client.check_sent {job : Job} (isJob : c.job = some job) (write : job.isGet = false)
    (encoded : check.encoded = true) (attached : check.attached = true) :
    ∃ d, c.clientNotifyHelperCheck check = (!check.applied, d) ∧ CheckSent c d job.request := by
  simp only [clientNotifyHelperCheck, isJob, write, encoded, attached]
  cases check.sent with
  | done => exact ⟨_, rfl, isJob.symm, rfl, rfl, rfl, .inr rfl, _, rfl, rfl⟩
  | moreData | error => exact ⟨_, rfl, isJob.symm, rfl, rfl, rfl, .inl rfl, _, rfl, rfl⟩

end Handlers

/-- The reply makes `recv_response` send a check. -/
def Client.SendsCheck (enableCheck : Bool) (result : ResultInfo) (check : Check) (c : Client) : Prop :=
  c.stage = .recvRep ∧ enableCheck = true ∧ c.job.any (!·.isGet) = true ∧
    result.code ∈ doubtfulCodes ∧ check.encoded = true ∧ check.attached = true

/-- A reply does not make `recv_response` send a check, and none comes while the connection
waits for the reply to a check. -/
def Safe (enableCheck : Bool) (c : Client) : Event → Prop
  | .input (.done result) check _ _ =>
    ¬ c.SendsCheck enableCheck result check ∧ c.stage ≠ .recvNotifyCheck
  | _ => True

section Steps
variable {c : Client} {enableCheck : Bool}

theorem Resettable.giveUp (ok : Resettable c) (again : Reconnect) : Inv (c.giveUp again) := by
  have dropped : Resettable { c with packet := none, checkJob := none } := { ok with }
  exact (dropped.setError _ _ _).reconnect again

variable {decoded : Decoded}

variable {applied : Bool} {again : Reconnect}

section
variable (inv : Inv c)
include inv

theorem Inv.recvResponse (stage : c.stage = .recvRep)
    (safe : Safe enableCheck c (.input decoded check applied again)) :
    Inv (Client.orReconnect again (c.recvResponse enableCheck decoded check)) := by
  have waiting := inv.waiting
  simp only [Waiting, stage] at waiting
  obtain ⟨id, free, ⟨job, isJob, request⟩, wire⟩ := waiting
  cases decoded with
  | waitData | idle =>
    simp only [recvResponse, isJob]
    exact inv.orReconnect again
  | fatalError | dataError =>
    simp only [recvResponse, isJob]
    exact (Resettable.finish (inv.tracked.setError _ _ _)).reconnect again
  | done result =>
    simp only [recvResponse, isJob]
    have wire' : ({ c with job := some (job.setResult result) } : Client).wire =
      [job.request] := by rw [request]; exact wire
    rw [read_cons wire']
    -- the reply answers the request of the job, and nothing is left on the wire
    have tracked : Tracked (c.log ++ [.replied job.request job.request])
        (some (job.setResult result)) := by
      refine (inv.tracked.replied job.request).congr fun id => ?_
      simp [isJob, held_some, Job.setResult]
    split_ifs with doubtful
    · simp only [Bool.and_eq_true, Bool.not_eq_true', decide_eq_true_eq] at doubtful
      obtain ⟨⟨enabled, write⟩, code⟩ := doubtful
      have refused : ¬ (check.encoded = true ∧ check.attached = true) := fun sent =>
        safe.1 ⟨stage, enabled, by simp [isJob, write], code, sent⟩
      obtain ⟨message, checked⟩ := check_refused
        (c := { c with
          job := some (job.setResult result)
          wire := []
          log := c.log ++ [.replied job.request job.request] }) rfl write refused
      rw [checked]
      exact Inv.finish (tracked.congr fun id => rfl) rfl
    · exact Inv.finish tracked rfl

theorem Inv.recvCheck (stage : c.stage = .recvNotifyCheck)
    (safe : Safe enableCheck c (.input decoded check applied again)) :
    Inv (Client.orReconnect again (c.recvNotifyHelperCheck decoded)) := by
  have waiting := inv.waiting
  simp only [Waiting, stage] at waiting
  obtain ⟨id, -, checkJob, isCheck, -⟩ := waiting
  cases decoded with
  | waitData | idle =>
    simp only [recvNotifyHelperCheck, isCheck]
    exact inv.orReconnect again
  | fatalError | dataError =>
    simp only [recvNotifyHelperCheck, isCheck]
    exact (Resettable.finish (inv.tracked.setError _ _ _)).reconnect again
  | done result => exact absurd stage safe.2

theorem Inv.inputNotify {again : Reconnect}
    (safe : Safe enableCheck c (.input decoded check applied again)) :
    Inv (c.inputNotify enableCheck decoded check applied again) := by
  unfold Client.inputNotify
  match stage : c.stage with
  | .recvVerify => exact inv.recvVerify stage decoded applied again
  | .recvNotifyReloadConfig => exact inv.recvReload stage decoded applied again
  | .recvNotifyCheck => exact inv.recvCheck stage safe
  | .recvRep => exact inv.recvResponse stage safe
  | .idle => exact inv.resettable.reset.inv
  | .disconnected => exact inv
  | .connecting | .sendReq | .sendVerify | .sendNotifyReloadConfig | .sendNotifyCheck => exact inv

theorem Inv.outputNotify (sent : SendResult) (applied unshifted : Bool)
    (again : Reconnect) : Inv (c.outputNotify sent applied unshifted again) := by
  have waiting := inv.waiting
  unfold Waiting at waiting
  -- a handler that leaves the invariant may fail as well
  have orAgain : ∀ {d : Client}, Inv d →
      Inv (if applied then d else ({ d with packet := none } : Client).reconnect again) := by
    intro d inv'
    split_ifs
    · exact inv'
    · exact (inv'.resettable.packet none).reconnect again
  unfold Client.outputNotify
  match stage : c.stage with
  | .sendVerify =>
    simp only [stage] at waiting
    exact orAgain (Inv.sendVerify (waiting.2.1 ▸ inv.tracked) waiting sent)
  | .sendNotifyReloadConfig =>
    simp only [stage] at waiting
    exact orAgain (Inv.sendReload (waiting.2.1 ▸ inv.tracked) waiting sent)
  | .sendNotifyCheck =>
    simp only [stage] at waiting
    have kept : Inv (c.sendNotifyHelperCheck sent applied).2 := by
      cases sent <;> exact ⟨inv.tracked, waiting⟩
    cases sent <;> cases applied <;> exact orAgain kept
  | .sendReq =>
    simp only [stage] at waiting
    cases sent with
    | moreData => exact inv
    | done => exact ⟨inv.tracked, waiting⟩
    | error =>
      have failed := inv.resettable.setError (-ecServerError) (some "Data source send failed") none
      exact (failed.queueBackTask unshifted).reconnect again
  | .connecting =>
    simp only [stage] at waiting
    exact Inv.sendVerify (c := { c.begin .detect with stage := .sendVerify })
      (waiting.2.1 ▸ inv.tracked) (waiting.begin .detect) sent
  | .recvVerify | .recvNotifyReloadConfig | .recvNotifyCheck | .recvRep | .idle | .disconnected =>
    exact inv

/-- The timeout of a write sends a check behind its request. -/
theorem Inv.timeout (stage : c.stage = .recvRep) (check : Check) (again : Reconnect) :
    Inv (if enableCheck && c.job.any (!·.isGet) then
      if (c.clientNotifyHelperCheck check).1 then (c.clientNotifyHelperCheck check).2.giveUp again
      else (c.clientNotifyHelperCheck check).2
    else c.giveUp again) := by
  have waiting := inv.waiting
  simp only [Waiting, stage] at waiting
  obtain ⟨id, free, ⟨job, isJob, request⟩, wire⟩ := waiting
  by_cases checks : (enableCheck && c.job.any (!·.isGet)) = true
  · rw [if_pos checks]
    have write : job.isGet = false := by
      simp only [isJob, Option.any_some, Bool.and_eq_true, Bool.not_eq_true'] at checks
      exact checks.2
    by_cases sends : check.encoded = true ∧ check.attached = true
    · obtain ⟨d, checked, sent⟩ := check_sent isJob write sends.1 sends.2
      rw [checked]
      have inv' : Inv d := by
        refine ⟨?_, ?_⟩
        · rw [sent.log, sent.job]
          exact inv.tracked
        · have busy : d.Busy (.forward id) [.forward id, .check (.forward id)] := by
            refine ⟨sent.free.trans free, ⟨job, sent.job.trans isJob, request⟩, ?_⟩
            rw [sent.wire, wire, request]
            rfl
          have asked := sent.checkJob
          rw [request] at asked
          unfold Waiting
          rcases sent.stage with stage | stage <;> rw [stage] <;> exact ⟨id, busy, asked⟩
      cases check.applied with
      | true => exact inv'
      | false => exact inv'.resettable.giveUp again
    · obtain ⟨message, checked⟩ := check_refused isJob write sends
      rw [checked]
      have ok := inv.resettable
      have dropped : Resettable { c with
          checkJob := some { job with request := .check job.request, isGet := true }
          packet := some (.check job.request) } := { ok with }
      exact (dropped.setError _ _ _).giveUp again
  · rw [if_neg checks]
    exact inv.resettable.giveUp again

theorem Inv.jobTimerProcedure (check : Check) (again : Reconnect) :
    Inv (c.jobTimerProcedure enableCheck check again) := by
  have waiting := inv.waiting
  unfold Waiting at waiting
  have ok := inv.resettable
  -- jobs of the connection itself are deleted
  have deleted (own : Tracked c.log none) : Inv (c.deleteJob.reconnect again) :=
    (ok.deleteJob own).reconnect again
  unfold Client.jobTimerProcedure
  match stage : c.stage with
  | .recvRep => exact inv.timeout stage check again
  | .sendNotifyCheck | .recvNotifyCheck => exact ok.giveUp again
  | .sendReq => exact (ok.setError _ _ _).reconnect again
  | .disconnected => exact ok.reconnect again
  | .connecting => exact ok.reset.inv
  | .idle => exact inv
  | .sendVerify => exact deleted (ok.own (.inl stage))
  | .recvVerify => exact deleted (ok.own (.inr stage))
  | .sendNotifyReloadConfig =>
    simp only [stage] at waiting
    exact deleted (waiting.2.1 ▸ inv.tracked)
  | .recvNotifyReloadConfig =>
    simp only [stage] at waiting
    obtain ⟨-, ⟨job, isJob, request⟩, -⟩ := waiting
    exact deleted (inv.tracked.congr fun id => by simp [isJob, held_some, request])

theorem Inv.step {event : Event} (safe : Safe enableCheck c event) :
    Inv (step enableCheck c event).2 := by
  cases event with
  | attach id isGet result encoded sent =>
    simp only [Connector.step]
    split_ifs with free
    · exact inv.attachTask free id isGet result encoded sent
    · exact inv
  | reloadConfig attached sent =>
    simp only [Connector.step]
    split_ifs with free
    · exact inv.reloadConfig free attached sent
    · exact inv
  | input decoded check applied again => exact inv.inputNotify safe
  | output sent applied unshifted again => exact inv.outputNotify sent applied unshifted again
  | hangup => exact inv.resettable.reset.inv
  | timer check again => exact inv.jobTimerProcedure check again

end

theorem Client.log_subset_finish (c : Client) : c.log ⊆ c.finish.log := by
  show c.log ⊆ c.completeTask.log
  unfold completeTask
  cases c.job with
  | none => exact List.Subset.refl _
  | some job => exact List.subset_append_left _ _

/-- A check sent by `recv_response` is unanswered when the connection is released. -/
theorem not_free_of_sendsCheck (inv : Inv c) {result : ResultInfo}
    (sends : c.SendsCheck enableCheck result check) (again : Reconnect) :
    ¬ Correct (orReconnect again (c.recvResponse enableCheck (.done result) check)) := by
  obtain ⟨stage, enabled, write, code, encoded, attached⟩ := sends
  have waiting := inv.waiting
  simp only [Waiting, stage] at waiting
  obtain ⟨id, free, ⟨job, isJob, request⟩, wire⟩ := waiting
  simp only [isJob, Option.any_some, Bool.not_eq_true'] at write
  simp only [recvResponse, isJob, enabled, write, code, decide_true, Bool.not_false,
    Bool.and_self, if_true]
  have wire' : ({ c with job := some (job.setResult result) } : Client).wire = [job.request] := by
    rw [request]
    exact wire
  rw [read_cons wire']
  obtain ⟨d, checked, sent⟩ := check_sent
    (c := { c with
      job := some (job.setResult result)
      wire := []
      log := c.log ++ [.replied job.request job.request] }) rfl write encoded attached
  rw [checked]
  intro correct
  have empty : d.finish.wire = [] := correct.free rfl
  have same : d.finish.wire = d.wire := d.completeTask_spec.2.2.1
  rw [same, sent.wire] at empty
  cases empty

/-- The first reply after a timeout answers the job, and is decoded as the reply to the check. -/
theorem not_paired_of_check (inv : Inv c) (stage : c.stage = .recvNotifyCheck)
    (result : ResultInfo) (again : Reconnect) :
    ¬ Correct (orReconnect again (c.recvNotifyHelperCheck (.done result))) := by
  have waiting := inv.waiting
  simp only [Waiting, stage] at waiting
  obtain ⟨id, ⟨-, -, wire⟩, checkJob, isCheck, request⟩ := waiting
  simp only [recvNotifyHelperCheck, isCheck, read_cons wire, request]
  -- both branches end with `finish`, which keeps the log
  have mispaired : ∀ d : Client,
      d.log = c.log ++ [.replied (.forward id) (.check (.forward id))] → ¬ Correct d.finish := by
    intro d log correct
    have mem : Entry.replied (.forward id) (.check (.forward id)) ∈ d.finish.log :=
      d.log_subset_finish (by simp [log])
    cases correct.tracked.paired _ _ mem
  split_ifs
  · exact mispaired _ rfl
  · exact mispaired _ rfl

theorem Inv.safe_of_correct (inv : Inv c) {event : Event}
    (correct : Correct (Connector.step enableCheck c event).2) : Safe enableCheck c event := by
  match event with
  | .input (.done result) check applied again =>
    constructor
    · intro sends
      have stage := sends.1
      simp only [Connector.step, Client.inputNotify, stage] at correct
      exact not_free_of_sendsCheck inv sends again correct
    · intro stage
      simp only [Connector.step, Client.inputNotify, stage] at correct
      exact not_paired_of_check inv stage result again correct
  | .input .fatalError _ _ _ => trivial
  | .input .dataError _ _ _ => trivial
  | .input .waitData _ _ _ => trivial
  | .input .idle _ _ _ => trivial
  | .attach _ _ _ _ _ | .reloadConfig _ _ | .output _ _ _ _ | .hangup | .timer _ _ => trivial

end Steps

theorem inv_start (again : Reconnect) : Inv (start again) := by
  refine Resettable.reconnect ⟨⟨?_, ?_⟩, ?_, ?_, ?_⟩ again
  · intro answers into mem
    cases mem
  · intro id
    rfl
  · intro free
    cases free
  · rintro (verify | verify) <;> cases verify
  · intro _
    exact ⟨rfl, rfl, rfl⟩

/-- In every state of a run, the replies have gone to the jobs they answer, each attached job has
been answered once or put back unless it is still attached, and the connection is free only with
nothing unanswered, exactly if no reply makes `recv_response` send a check and no reply comes
while the connection waits for the reply to a check. -/
theorem connection_correct_iff (enableCheck : Bool) (again : Reconnect) (events : List Event) :
    (∀ k, Correct (final (step enableCheck) (start again) (events.take k))) ↔
      Admitted (Safe enableCheck) (step enableCheck) (start again) events :=
  forall_take_iff_admitted Inv Correct (fun _ inv => inv.correct)
    (fun _ _ inv safe => inv.step safe) (fun _ _ inv correct => inv.safe_of_correct correct)
    (inv_start again) events

/-- A connection whose helper is there at once and accepts all requests. -/
def prompt : Reconnect := ⟨.connected, true, .done⟩

/-- A check that is sent at once. -/
def promptCheck : Check := ⟨true, true, .done, true⟩

/-- The helper is detected, takes a write and answers that the database was shut down; a second
job then gets a reply. -/
def shutdownRun : List Event :=
  [.input (.done ⟨-ecExtraSectionData, "", ""⟩) promptCheck true prompt,
    .attach 1 false .empty true .done,
    .input (.done ⟨-1053, "mysql", "Server shutdown in progress"⟩) promptCheck true prompt,
    .attach 2 true .empty true .done,
    .input (.done .empty) promptCheck true prompt]

/-- After the third event the connection is free while the check waits for its reply, and the
second job gets that reply. -/
theorem check_reply_misdelivered :
    (final (step true) (start prompt) (shutdownRun.take 3)).free = true ∧
    (final (step true) (start prompt) (shutdownRun.take 3)).wire = [.check (.forward 1)] ∧
    .replied (.check (.forward 1)) (.forward 2) ∈
      (final (step true) (start prompt) shutdownRun).log ∧
    ¬ Correct (final (step true) (start prompt) (shutdownRun.take 3)) ∧
    ¬ Correct (final (step true) (start prompt) shutdownRun) := by
  refine ⟨by decide, by decide, by decide, fun correct => ?_, fun correct => ?_⟩
  · have empty := correct.free (by decide)
    revert empty
    decide
  · have mem : .replied (.check (.forward 1)) (.forward 2) ∈
        (final (step true) (start prompt) shutdownRun).log := by decide
    cases correct.tracked.paired _ _ mem

end Dtc.Connector
