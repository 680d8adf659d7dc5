import Dtc.Library.SerialGate

/-!
# The barrier chain

`BarrierAskAnswerChain` queues the jobs of one barrier key behind each other. Its
state is the array of hash lists of barriers, the list of free barriers, the
counter of barriers in use, and the queue of the joint to the next chain.

The two callbacks update this state before they call out, and every call out is
their last action on it. A nested callback therefore sees the state of a finished
one, and a run is a sequence of whole callbacks and of jobs taken from the joint's
queue by its timer. An action records a call out: a request handed to the next
chain, or a job turned around to its sender with the error code set on it.
-/

namespace Dtc.Chain

open Library List SerialGate Function

/-- `DRequest::TYPE_SYSTEM_COMMAND`. -/
def typeSystemCommand : Nat := 3

/-- `DRequest::SystemCommand::Migrate`. -/
def migrate : Nat := 14

/-- `EC_SERVER_BUSY`. -/
def ecServerBusy : Int := 2026

/-- `TaskPackedKey::calculate_barrier_key`: the key is the format's number of
bytes, or as many as its first byte says when the format is zero. -/
def calculateBarrierKey (keyFormat : Nat) (pkey : List UInt8) : Nat :=
  let bytes :=
    if keyFormat = 0 then pkey.tail.take (pkey.headD 0).toNat else pkey.take keyFormat
  bytes.foldl
    (fun h c => (h * 11111 + (c.toNat <<< 4) + (c.toNat >>> 4)) % 2 ^ 64) 0

/-- The fields of `DTCJobOperation` the barrier reads. A job is identified by its
address; a job without a packed key keeps barrier hash zero. -/
structure JobOperation where
  address : Nat
  requestCode : Nat
  adminCode : Nat
  isBatchRequest : Bool
  packedKey : Option (List UInt8)
  deriving DecidableEq

/-- `barrier_key`, for the key format of the table. -/
def JobOperation.barrierKey (keyFormat : Nat) (job : JobOperation) : Nat :=
  match job.packedKey with
  | none => 0
  | some pkey => calculateBarrierKey keyFormat pkey

/-- Jobs that both callbacks pass on without queueing. -/
def JobOperation.passes (job : JobOperation) : Bool :=
  (job.requestCode == typeSystemCommand && job.adminCode != migrate) || job.isBatchRequest

/-- `BarrierQueue`: its key and its jobs in order. -/
structure BarrierQueue where
  key : Nat
  jobs : List JobOperation

/-- `BARRIER_HASH_MAX` is the unparenthesised text `1024 * 8`. -/
def key2idx (key : Nat) : Nat := key % 1024 * 8

/-- The state of `BarrierAskAnswerChain` and of the joint below it. -/
structure BarrierChain where
  count : Int
  freeList : List BarrierQueue
  hashSlot : Nat → List BarrierQueue
  queue : List JobOperation

/-- The constructor's arguments, the joint's `use_queue` and the table's `key_format`. -/
structure BarrierConfig where
  keyFormat : Nat
  maxBarrier : Int
  maxKeyCount : Int
  useQueue : Bool

/-- A call out of the chain. -/
inductive Action where
  | request (job : JobOperation)
  | turnAround (job : JobOperation) (error : Int)

/-- The state after construction. -/
def BarrierChain.init : BarrierChain := ⟨0, [], fun _ => [], []⟩

/-- `get_barrier`. -/
def BarrierChain.getBarrier (s : BarrierChain) (key : Nat) : Option BarrierQueue :=
  (s.hashSlot (key2idx key)).find? fun barrier => barrier.key = key

/-- Write through the pointer `get_barrier` returned: the first barrier of the key. -/
def writeBarrier (key : Nat) (f : BarrierQueue → BarrierQueue) :
    List BarrierQueue → List BarrierQueue
  | [] => []
  | barrier :: rest =>
    if barrier.key = key then f barrier :: rest else barrier :: writeBarrier key f rest

/-- Replace the hash list of a key. -/
def BarrierChain.setSlot (s : BarrierChain) (key : Nat) (slot : List BarrierQueue) :
    BarrierChain :=
  { s with hashSlot := Function.update s.hashSlot (key2idx key) slot }

/-- `job_ask_procedure`. -/
def jobAskProcedure (cfg : BarrierConfig) (s : BarrierChain) (job : JobOperation) :
    List Action × BarrierChain :=
  if job.passes then ([.request job], s)
  else
    let key := job.barrierKey cfg.keyFormat
    let slot := s.hashSlot (key2idx key)
    match s.getBarrier key with
    | some barrier =>
      if (barrier.jobs.length : Int) < cfg.maxKeyCount then
        ([], s.setSlot key
          (writeBarrier key (fun b => { b with jobs := b.jobs ++ [job] }) slot))
      else ([.turnAround job (-ecServerBusy)], s)
    | none =>
      if cfg.maxBarrier ≤ s.count then ([.turnAround job (-ecServerBusy)], s)
      else
        -- a recycled barrier comes from the head of the free list
        let barrier := s.freeList.headD ⟨0, []⟩
        let s := { s with freeList := s.freeList.tail }
        let pushed := { barrier with key := key, jobs := barrier.jobs ++ [job] }
        ([.request job], { s.setSlot key (slot ++ [pushed]) with count := s.count + 1 })

/-- `attach_free_barrier`: the emptied barrier moves to the free list. -/
def BarrierChain.attachFreeBarrier (s : BarrierChain) (barrier : BarrierQueue) : BarrierChain :=
  { s.setSlot barrier.key
      ((s.hashSlot (key2idx barrier.key)).eraseP fun b => b.key = barrier.key) with
    freeList := barrier :: s.freeList
    count := s.count - 1 }

/-- `queue_request`: the joint queues the job for its timer, or hands it down. -/
def queueRequest (cfg : BarrierConfig) (s : BarrierChain) (job : JobOperation) :
    List Action × BarrierChain :=
  if cfg.useQueue then ([], { s with queue := s.queue ++ [job] }) else ([.request job], s)

/-- `job_answer_procedure`. -/
def jobAnswerProcedure (cfg : BarrierConfig) (s : BarrierChain) (job : JobOperation) :
    List Action × BarrierChain :=
  if job.passes then ([.turnAround job 0], s)
  else
    let key := job.barrierKey cfg.keyFormat
    let slot := s.hashSlot (key2idx key)
    match s.getBarrier key with
    | none => ([.turnAround job 0], s)
    | some barrier =>
      if barrier.jobs.head? = some job then
        let popped := { barrier with jobs := barrier.jobs.tail }
        match popped.jobs with
        | [] => ([.turnAround job 0], s.attachFreeBarrier popped)
        | next :: _ =>
          let s := s.setSlot key (writeBarrier key (fun _ => popped) slot)
          let queued := queueRequest cfg s next
          (queued.1 ++ [.turnAround job 0], queued.2)
      else ([.turnAround job 0], s)

/-- One round of the loop of the joint's `job_timer_procedure`. -/
def jobTimerRound (s : BarrierChain) : List Action × BarrierChain :=
  match s.queue with
  | [] => ([], s)
  | job :: rest => ([.request job], { s with queue := rest })

/-- What reaches the chain. -/
inductive BarrierEvent where
  | ask (job : JobOperation)
  | answer (job : JobOperation)
  | timer

/-- The chain with an observer: the log of the queued jobs, and the jobs below
the barrier that were passed on without queueing. -/
structure BarrierWorld where
  chain : BarrierChain
  log : SerialGate.Log JobOperation
  passing : List JobOperation

/-- The jobs handed to the next chain. -/
def requested (actions : List Action) : List JobOperation :=
  actions.filterMap fun
    | .request job => some job
    | .turnAround _ _ => none

/-- Whether a job was turned around at once. -/
def refused (actions : List Action) : Bool :=
  actions.any fun
    | .request _ => false
    | .turnAround _ _ => true

/-- Nothing has happened yet. -/
def BarrierWorld.init : BarrierWorld := ⟨.init, ⟨[], [], [], []⟩, []⟩

/-- One event, and what the observer notes. -/
def barrierStep (cfg : BarrierConfig) (w : BarrierWorld) :
    BarrierEvent → List Action × BarrierWorld
  | .ask job =>
    let res := jobAskProcedure cfg w.chain job
    if job.passes then
      (res.1, { w with chain := res.2, passing := w.passing ++ [job] })
    else if refused res.1 then (res.1, { w with chain := res.2 })
    else
      (res.1, { w with chain := res.2, log := w.log.observe (.arrive job) (requested res.1) })
  | .answer job =>
    let res := jobAnswerProcedure cfg w.chain job
    if job.passes then
      (res.1, { w with chain := res.2, passing := w.passing.erase job })
    else
      (res.1, { w with chain := res.2, log := w.log.observe (.finish job) (requested res.1) })
  | .timer =>
    let res := jobTimerRound w.chain
    (res.1, { w with chain := res.2, log := w.log.observe .deliver (requested res.1) })

/-- The next chain answers a job that it has been handed and not answered yet. -/
def BarrierLegal (w : BarrierWorld) : BarrierEvent → Prop
  | .ask _ => True
  | .answer job => if job.passes then job ∈ w.passing else job ∈ w.log.below
  | .timer => True

instance (w : BarrierWorld) (e : BarrierEvent) : Decidable (BarrierLegal w e) :=
  match e with
  | .ask _ => isTrue trivial
  | .answer job => inferInstanceAs (Decidable (if job.passes then _ else _))
  | .timer => isTrue trivial

section Slots

variable {key other : Nat} {f : BarrierQueue → BarrierQueue} {slot : List BarrierQueue}

section
variable (hf : ∀ b, b.key = key → (f b).key = key)
include hf

private theorem keys_writeBarrier :
    (writeBarrier key f slot).map BarrierQueue.key = slot.map BarrierQueue.key := by
  induction slot with
  | nil => rfl
  | cons b rest ih =>
    simp only [writeBarrier]
    split_ifs with h
    · simp [hf b h, h]
    · simp [ih]

private theorem find?_writeBarrier_self :
    (writeBarrier key f slot).find? (fun b => b.key = key) =
      (slot.find? fun b => b.key = key).map f := by
  induction slot with
  | nil => rfl
  | cons b rest ih =>
    simp only [writeBarrier]
    split_ifs with h
    · simp [hf b h, h]
    · simp [h, ih]

private theorem find?_writeBarrier_ne (hne : other ≠ key) :
    (writeBarrier key f slot).find? (fun b => b.key = other) =
      slot.find? fun b => b.key = other := by
  induction slot with
  | nil => rfl
  | cons b rest ih =>
    simp only [writeBarrier]
    split_ifs with h
    · simp [hf b h, h, Ne.symm hne]
    · by_cases hb : b.key = other
      · simp [hb]
      · simp [hb, ih]

end

private theorem find?_eraseP_self (nodup : (slot.map BarrierQueue.key).Nodup) :
    (slot.eraseP fun b => b.key = key).find? (fun b => b.key = key) = none := by
  induction slot with
  | nil => rfl
  | cons b rest ih =>
    rw [map_cons, nodup_cons] at nodup
    by_cases h : b.key = key
    · subst h
      simp only [decide_true, eraseP_cons_of_pos, find?_eq_none, decide_eq_true_eq]
      intro x hx heq
      exact nodup.1 (heq ▸ mem_map_of_mem hx)
    · simp [h, ih nodup.2]

private theorem find?_eraseP_ne (hne : other ≠ key) :
    (slot.eraseP fun b => b.key = key).find? (fun b => b.key = other) =
      slot.find? fun b => b.key = other := by
  induction slot with
  | nil => rfl
  | cons b rest ih =>
    by_cases h : b.key = key
    · simp [h, Ne.symm hne]
    · by_cases hb : b.key = other
      · simp [hb, hne]
      · simp [h, hb, ih]

end Slots

/-- The hash lists hold one barrier for every key with pending jobs, in the list
of its key, and no other. -/
structure SlotsHold (hashSlot : Nat → List BarrierQueue) (pending : Nat → List JobOperation) :
    Prop where
  lookup : ∀ key, (hashSlot (key2idx key)).find? (fun b => b.key = key) =
    if pending key = [] then none else some ⟨key, pending key⟩
  placed : ∀ i, ∀ b ∈ hashSlot i, key2idx b.key = i
  nodup : ∀ i, ((hashSlot i).map BarrierQueue.key).Nodup

/-- The chain holds the pending jobs of the gate. -/
structure Holds (s : BarrierChain) (g : SerialGate.Gate Nat JobOperation) : Prop where
  slots : SlotsHold s.hashSlot g.pending
  free : ∀ b ∈ s.freeList, b.jobs = []
  queue : s.queue = g.deferred
  count : ∃ keys : Finset Nat, (∀ k, k ∈ keys ↔ g.pending k ≠ []) ∧ s.count = keys.card

/-- Rewriting the list of one key changes the pending jobs of that key only. -/
theorem SlotsHold.update {hashSlot : Nat → List BarrierQueue}
    {pending : Nat → List JobOperation} (hold : SlotsHold hashSlot pending) {key : Nat}
    {slot : List BarrierQueue} {jobs : List JobOperation}
    (self : slot.find? (fun b => b.key = key) = if jobs = [] then none else some ⟨key, jobs⟩)
    (others : ∀ other, other ≠ key → slot.find? (fun b => b.key = other) =
      (hashSlot (key2idx key)).find? fun b => b.key = other)
    (placed : ∀ b ∈ slot, key2idx b.key = key2idx key)
    (nodup : (slot.map BarrierQueue.key).Nodup) :
    SlotsHold (update hashSlot (key2idx key) slot)
      (update pending key jobs) := by
  refine ⟨fun k => ?_, fun i => ?_, fun i => ?_⟩
  · by_cases hk : k = key
    · subst hk
      simpa only [update_self] using self
    · rw [update_of_ne hk, ← hold.lookup k]
      by_cases hi : key2idx k = key2idx key
      · rw [hi, update_self]
        exact others k hk
      · rw [update_of_ne hi]
  · by_cases hi : i = key2idx key
    · subst hi
      rw [update_self]
      exact placed
    · rw [update_of_ne hi]
      exact hold.placed i
  · by_cases hi : i = key2idx key
    · subst hi
      rw [update_self]
      exact nodup
    · rw [update_of_ne hi]
      exact hold.nodup i

section Steps

variable {s : BarrierChain} {g : SerialGate.Gate Nat JobOperation}

theorem Holds.getBarrier (hold : Holds s g) (key : Nat) :
    s.getBarrier key = if g.pending key = [] then none else some ⟨key, g.pending key⟩ :=
  hold.slots.lookup key

private theorem placed_writeBarrier {key : Nat} {f : BarrierQueue → BarrierQueue}
    {slot : List BarrierQueue} (hf : ∀ b, b.key = key → (f b).key = key) {i : Nat}
    (placed : ∀ b ∈ slot, key2idx b.key = i) :
    ∀ b ∈ writeBarrier key f slot, key2idx b.key = i := by
  intro b hb
  have member : b.key ∈ (writeBarrier key f slot).map BarrierQueue.key := mem_map_of_mem hb
  rw [keys_writeBarrier hf] at member
  obtain ⟨x, hx, heq⟩ := mem_map.mp member
  exact heq ▸ placed x hx

/-- Writing new jobs into the barrier of a key that has one. -/
theorem SlotsHold.write {hashSlot : Nat → List BarrierQueue}
    {pending : Nat → List JobOperation} (hold : SlotsHold hashSlot pending) {key : Nat}
    {f : BarrierQueue → BarrierQueue} {jobs : List JobOperation} (present : pending key ≠ [])
    (hf : ∀ b, b.key = key → (f b).key = key) (result : f ⟨key, pending key⟩ = ⟨key, jobs⟩)
    (nonempty : jobs ≠ []) :
    SlotsHold
      (Function.update hashSlot (key2idx key) (writeBarrier key f (hashSlot (key2idx key))))
      (Function.update pending key jobs) := by
  refine hold.update ?_ (fun other hne => find?_writeBarrier_ne hf hne)
    (placed_writeBarrier hf (hold.placed _)) ?_
  · rw [find?_writeBarrier_self hf, hold.lookup, if_neg present, if_neg nonempty,
      Option.map_some, result]
  · rw [keys_writeBarrier hf]
    exact hold.nodup _

variable {cfg : BarrierConfig} {job : JobOperation}

/-- A refused job leaves the chain as it was. -/
theorem jobAskProcedure_of_refused (queued : job.passes = false)
    (busy : refused (jobAskProcedure cfg s job).1 = true) : (jobAskProcedure cfg s job).2 = s := by
  simp only [jobAskProcedure, queued, Bool.false_eq_true, if_false] at busy ⊢
  cases hb : s.getBarrier (job.barrierKey cfg.keyFormat) with
  | none =>
    simp only [hb] at busy ⊢
    split_ifs at busy ⊢ with hfull
    · rfl
    · simp [refused] at busy
  | some barrier =>
    simp only [hb] at busy ⊢
    split_ifs at busy ⊢ with hroom
    · simp [refused] at busy
    · rfl

open JobOperation

/-- An admitted job arrives at the gate. -/
theorem Holds.ask (hold : Holds s g) (queued : job.passes = false)
    (accepted : refused (jobAskProcedure cfg s job).1 = false) (immediate : Bool) :
    requested (jobAskProcedure cfg s job).1 =
        (step (barrierKey cfg.keyFormat) immediate g (.arrive job)).1 ∧
      Holds (jobAskProcedure cfg s job).2
        (step (barrierKey cfg.keyFormat) immediate g (.arrive job)).2 := by
  obtain ⟨keys, mem_keys, hcount⟩ := hold.count
  simp only [jobAskProcedure, queued, Bool.false_eq_true, if_false, hold.getBarrier] at accepted ⊢
  by_cases hp : g.pending (job.barrierKey cfg.keyFormat) = []
  · simp only [hp, if_true] at accepted ⊢
    split_ifs at accepted ⊢ with hfull
    · simp [refused] at accepted
    · have empty : (s.freeList.headD ⟨0, []⟩).jobs = [] := by
        cases hfree : s.freeList with
        | nil => rfl
        | cons b rest => exact hold.free b (by simp [hfree])
      have missing := hold.slots.lookup (job.barrierKey cfg.keyFormat)
      rw [hp, if_pos rfl, find?_eq_none] at missing
      simp only [step, hp, isEmpty_nil, if_true, empty, nil_append]
      refine ⟨rfl, ⟨?_, ?_, hold.queue, insert (job.barrierKey cfg.keyFormat) keys, fun k => ?_, ?_⟩⟩
      · refine hold.slots.update ?_ (fun other hne => ?_) ?_ ?_
        · rw [find?_append, find?_eq_none.mpr missing]
          simp
        · rw [find?_append]
          simp [Ne.symm hne]
        · intro b hb
          obtain hb | hb := mem_append.mp hb
          · exact hold.slots.placed _ b hb
          · rw [mem_singleton.mp hb]
        · rw [map_append, nodup_append]
          refine ⟨hold.slots.nodup _, by simp, fun k hk other hother heq => ?_⟩
          obtain ⟨b, hb, rfl⟩ := mem_map.mp hk
          have : b.key = (job.barrierKey cfg.keyFormat) := by simpa [heq] using hother
          exact missing b hb (by simpa using this)
      · exact fun b hb => hold.free b (mem_of_mem_tail hb)
      · by_cases hk : k = (job.barrierKey cfg.keyFormat)
        · subst hk
          simp
        · simp [hk, mem_keys]
      · have fresh : (job.barrierKey cfg.keyFormat) ∉ keys := fun h => (mem_keys _).mp h hp
        rw [Finset.card_insert_of_notMem fresh]
        simp [hcount]
  · simp only [hp, if_false] at accepted ⊢
    split_ifs at accepted ⊢ with hroom
    · have waiting : (g.pending (job.barrierKey cfg.keyFormat)).isEmpty = false := by simpa using hp
      simp only [step, waiting, Bool.false_eq_true, if_false]
      refine ⟨rfl, ⟨?_, hold.free, hold.queue, keys, fun k => ?_, hcount⟩⟩
      · exact hold.slots.write hp (fun b hb => hb) rfl (by simp)
      · by_cases hk : k = (job.barrierKey cfg.keyFormat)
        · subst hk
          simp [mem_keys, hp]
        · simp [mem_keys, Function.update_of_ne hk]
    · simp [refused] at accepted

/-- The answer to the first job of a key finishes it at the gate. -/
theorem Holds.answer (hold : Holds s g) (queued : job.passes = false) {rest : List JobOperation}
    (hp : g.pending (job.barrierKey cfg.keyFormat) = job :: rest) :
    requested (jobAnswerProcedure cfg s job).1 =
        (step (barrierKey cfg.keyFormat) (!cfg.useQueue) g (.finish job)).1 ∧
      Holds (jobAnswerProcedure cfg s job).2
        (step (barrierKey cfg.keyFormat) (!cfg.useQueue) g (.finish job)).2 := by
  obtain ⟨keys, mem_keys, hcount⟩ := hold.count
  have present : g.pending (job.barrierKey cfg.keyFormat) ≠ [] := by simp [hp]
  simp only [jobAnswerProcedure, queued, Bool.false_eq_true, if_false, hold.getBarrier, hp,
    reduceCtorEq, head?_cons, if_true, tail_cons, step]
  cases rest with
  | nil =>
    refine ⟨rfl, ⟨?_, fun b hb => ?_, hold.queue, keys.erase (job.barrierKey cfg.keyFormat), fun k => ?_, ?_⟩⟩
    · refine hold.slots.update (find?_eraseP_self (hold.slots.nodup _))
        (fun other hne => find?_eraseP_ne hne) ?_ ?_
      · exact fun b hb => hold.slots.placed _ b (mem_of_mem_eraseP hb)
      · exact (hold.slots.nodup _).sublist (eraseP_sublist.map _)
    · obtain rfl | hb := mem_cons.mp hb
      · rfl
      · exact hold.free b hb
    · by_cases hk : k = (job.barrierKey cfg.keyFormat)
      · subst hk
        simp
      · simp [hk, mem_keys]
    · have member : (job.barrierKey cfg.keyFormat) ∈ keys := (mem_keys _).mpr present
      have pos := Finset.card_pos.mpr ⟨_, member⟩
      rw [Finset.card_erase_of_mem member]
      simp only [BarrierChain.attachFreeBarrier, hcount]
      omega
  | cons next rest =>
    have slots := hold.slots.write (f := fun _ => ⟨(job.barrierKey cfg.keyFormat), next :: rest⟩) present
      (fun _ _ => rfl) rfl (cons_ne_nil next rest)
    have pending : ∀ k, k ∈ keys ↔
        update g.pending (job.barrierKey cfg.keyFormat) (next :: rest) k ≠ [] := by
      intro k
      by_cases hk : k = (job.barrierKey cfg.keyFormat)
      · subst hk
        simp [mem_keys, present]
      · simp [mem_keys, update_of_ne hk]
    cases huse : cfg.useQueue with
    | true =>
      simp only [queueRequest, huse, if_true, Bool.not_true, Bool.false_eq_true, if_false]
      refine ⟨rfl, ⟨slots, hold.free, ?_, keys, pending, hcount⟩⟩
      simp [BarrierChain.setSlot, hold.queue]
    | false =>
      simp only [queueRequest, huse, Bool.false_eq_true, if_false, Bool.not_false, if_true]
      exact ⟨rfl, ⟨slots, hold.free, hold.queue, keys, pending, hcount⟩⟩

/-- A round of the timer delivers the first deferred job. -/
theorem Holds.timer (hold : Holds s g) (cfg : BarrierConfig) (immediate : Bool) :
    requested (jobTimerRound s).1 =
        (step (barrierKey cfg.keyFormat) immediate g .deliver).1 ∧
      Holds (jobTimerRound s).2
        (step (barrierKey cfg.keyFormat) immediate g .deliver).2 := by
  simp only [jobTimerRound, step, hold.queue]
  cases hd : g.deferred with
  | nil => exact ⟨rfl, hold⟩
  | cons job rest => exact ⟨rfl, ⟨hold.slots, hold.free, rfl, hold.count⟩⟩

end Steps

/-- The chain holds a gate whose histories are the observer's log. -/
def BarrierInv (cfg : BarrierConfig) (w : BarrierWorld) : Prop :=
  ∃ g, Holds w.chain g ∧ SerialGate.Inv (JobOperation.barrierKey cfg.keyFormat) g w.log

theorem barrierInv_init (cfg : BarrierConfig) : BarrierInv cfg .init := by
  refine ⟨⟨fun _ => [], []⟩, ⟨⟨?_, ?_, ?_⟩, ?_, rfl, ∅, ?_, rfl⟩, ⟨?_, ?_, ?_, ?_⟩⟩ <;>
    simp [BarrierWorld.init, BarrierChain.init]

variable {cfg : BarrierConfig} {w : BarrierWorld}

variable {e : BarrierEvent}

/-- Each legal event is an event of the gate, or leaves gate and log alone. -/
theorem BarrierInv.step (inv : BarrierInv cfg w) (legal : BarrierLegal w e) :
    BarrierInv cfg (barrierStep cfg w e).2 := by
  obtain ⟨g, hold, gate⟩ := inv
  cases e with
  | ask job =>
    simp only [barrierStep]
    split_ifs with hpass hbusy
    · exact ⟨g, by simpa [jobAskProcedure, hpass] using hold, gate⟩
    · rw [jobAskProcedure_of_refused (by simpa using hpass) hbusy]
      exact ⟨g, hold, gate⟩
    · obtain ⟨through, next⟩ := hold.ask (by simpa using hpass) (by simpa using hbusy) true
      exact ⟨_, next, through ▸ gate.arrive true job⟩
  | answer job =>
    simp only [barrierStep, BarrierLegal] at legal ⊢
    split_ifs at legal ⊢ with hpass
    · exact ⟨g, by simpa [jobAnswerProcedure, hpass] using hold, gate⟩
    · obtain ⟨-, -, rest, hp⟩ := gate.front legal
      obtain ⟨through, next⟩ := hold.answer (by simpa using hpass) hp
      exact ⟨_, next, through ▸ gate.finish _ legal⟩
  | timer =>
    obtain ⟨through, next⟩ := hold.timer cfg true
    refine ⟨_, next, ?_⟩
    simp only [barrierStep, through]
    exact gate.deliver true

/-- The jobs of a list with a given packed key. -/
def withPackedKey (pkey : Option (List UInt8)) (jobs : List JobOperation) :
    List JobOperation :=
  jobs.filter fun job => job.packedKey = pkey

/-- Jobs with one packed key share their barrier key. -/
theorem withPackedKey_ofKey (keyFormat : Nat) (pkey : Option (List UInt8)) :
    ∃ key, ∀ jobs, withPackedKey pkey
      (ofKey (JobOperation.barrierKey keyFormat) key jobs) = withPackedKey pkey jobs := by
  refine ⟨match pkey with | none => 0 | some bytes => calculateBarrierKey keyFormat bytes,
    fun jobs => ?_⟩
  rw [withPackedKey, ofKey, filter_filter]
  refine filter_congr fun job _ => ?_
  by_cases h : job.packedKey = pkey
  · subst h
    simp [JobOperation.barrierKey]
  · simp [h]

/-- An event that finishes or hands down a job. -/
def Drains (w : BarrierWorld) : BarrierEvent → Prop
  | .ask _ => False
  | .answer job => BarrierLegal w (.answer job)
  | .timer => w.chain.queue ≠ []

/-- An upper bound for the number of events until everything is finished. -/
def remaining (w : BarrierWorld) : Nat :=
  2 * (w.log.admitted.length - w.log.completed.length) + w.chain.queue.length + w.passing.length

/-- What the barrier chain guarantees of a state. -/
structure BarrierGuarantee (cfg : BarrierConfig) (w : BarrierWorld) : Prop where
  /-- at most one job of a packed key is below the barrier -/
  exclusive : ∀ pkey, (withPackedKey pkey w.log.below).length ≤ 1
  /-- the jobs of a key went down in arrival order, each once, and the others of
  the key are queued in its barrier -/
  ordered : ∀ pkey, ∃ waiting,
    withPackedKey pkey w.log.admitted = withPackedKey pkey w.log.released ++ waiting ∧
      ∀ job ∈ waiting, ∃ barrier,
        w.chain.getBarrier (job.barrierKey cfg.keyFormat) = some barrier ∧ job ∈ barrier.jobs
  /-- the barriers in use are the barrier keys with a job that has not finished -/
  counted : w.chain.count =
    ((w.log.admitted.diff w.log.completed).map
      (JobOperation.barrierKey cfg.keyFormat)).toFinset.card
  /-- when no job is below and none is deferred, all have been released and finished -/
  complete : w.log.below = [] → w.chain.queue = [] → ∀ pkey,
    withPackedKey pkey w.log.released = withPackedKey pkey w.log.admitted ∧
      withPackedKey pkey w.log.completed = withPackedKey pkey w.log.admitted
  /-- and this is reached after boundedly many completions and timer rounds -/
  bounded : ∀ more, Machine.Admitted Drains (barrierStep cfg) w more → more.length ≤ remaining w

theorem drains_legal (drains : Drains w e) : BarrierLegal w e := by
  cases e with
  | ask job => exact drains.elim
  | answer job => exact drains
  | timer => trivial

/-- Completions and timer rounds use up what remains. -/
theorem BarrierInv.remaining_lt (inv : BarrierInv cfg w) (drains : Drains w e) :
    remaining (barrierStep cfg w e).2 < remaining w := by
  obtain ⟨g, hold, gate⟩ := inv
  have work : ∀ passing, remaining ⟨w.chain, w.log, passing⟩ =
      work g w.log + passing.length := by
    intro passing
    simp only [remaining, work, hold.queue]
  have before := work w.passing
  cases e with
  | ask job => exact drains.elim
  | answer job =>
    simp only [Drains, BarrierLegal, barrierStep] at drains ⊢
    split_ifs at drains ⊢ with hpass
    · have same : (jobAnswerProcedure cfg w.chain job).2 = w.chain := by
        simp [jobAnswerProcedure, hpass]
      have less := length_erase_of_mem drains
      have pos := length_pos_of_mem drains
      rw [same, work]
      change _ < remaining ⟨w.chain, w.log, w.passing⟩
      omega
    · obtain ⟨-, -, rest, hp⟩ := gate.front drains
      obtain ⟨through, next⟩ := hold.answer (by simpa using hpass) hp
      have less := gate.work_lt (!cfg.useQueue) (e := .finish job) drains (by simp) (by simp)
      simp only [SerialGate.work] at less
      change _ < remaining ⟨w.chain, w.log, w.passing⟩
      simp only [remaining, through, next.queue, hold.queue]
      omega
  | timer =>
    obtain ⟨through, next⟩ := hold.timer cfg true
    have less := gate.work_lt true (e := .deliver) trivial (by simp) fun _ => hold.queue ▸ drains
    simp only [SerialGate.work] at less
    change _ < remaining ⟨w.chain, w.log, w.passing⟩
    simp only [remaining, barrierStep, through, next.queue, hold.queue]
    omega

/-- The guarantees follow from the invariant. -/
theorem BarrierInv.guarantee (inv : BarrierInv cfg w) : BarrierGuarantee cfg w := by
  have bounded : ∀ more, Machine.Admitted Drains (barrierStep cfg) w more →
      more.length ≤ remaining w := fun more drains =>
    Machine.length_le_measure (BarrierInv cfg) remaining
      (fun w e inv drains => ⟨inv.step (drains_legal drains), inv.remaining_lt drains⟩) inv drains
  obtain ⟨g, hold, gate⟩ := inv
  obtain ⟨keys, mem_keys, hcount⟩ := hold.count
  refine ⟨fun pkey => ?_, fun pkey => ?_, ?_, fun below queue pkey => ?_, bounded⟩
  · obtain ⟨key, same⟩ := withPackedKey_ofKey cfg.keyFormat pkey
    rw [← same]
    exact (length_filter_le _ _).trans (gate.exclusive key)
  · obtain ⟨key, same⟩ := withPackedKey_ofKey cfg.keyFormat pkey
    obtain ⟨waiting, order, sub⟩ := gate.order key
    refine ⟨withPackedKey pkey waiting, ?_, fun job hjob => ?_⟩
    · rw [← same, ← same w.log.released, order]
      exact filter_append ..
    · have member : job ∈ g.pending key := sub.subset (mem_of_mem_filter hjob)
      rw [gate.own key job member, hold.getBarrier, if_neg (ne_nil_of_mem member)]
      exact ⟨_, rfl, member⟩
  · rw [hcount]
    refine congrArg (fun keys : Finset Nat => (keys.card : Int)) (Finset.ext fun k => ?_)
    rw [mem_keys, mem_toFinset, mem_map]
    constructor
    · intro hne
      obtain ⟨job, member⟩ := exists_mem_of_ne_nil _ hne
      have own := gate.own k job member
      exact ⟨job, (gate.mem_diff_iff job).mpr (own.symm ▸ member), own⟩
    · rintro ⟨job, member, rfl⟩
      exact ne_nil_of_mem ((gate.mem_diff_iff job).mp member)
  · obtain ⟨key, same⟩ := withPackedKey_ofKey cfg.keyFormat pkey
    obtain ⟨released, completed⟩ := gate.quiescent below (hold.queue ▸ queue) key
    rw [← same, ← same w.log.admitted, ← same w.log.completed, released, completed]
    exact ⟨rfl, rfl⟩

/-- After every legal sequence of arrivals, completions and timer rounds the
barrier chain keeps its guarantees. -/
theorem barrier_run_guarantee (cfg : BarrierConfig) (events : List BarrierEvent)
    (legal : Machine.Admitted BarrierLegal (barrierStep cfg) .init events) :
    BarrierGuarantee cfg (Machine.final (barrierStep cfg) .init events) := by
  apply BarrierInv.guarantee
  exact Machine.final_invariant (BarrierInv cfg) (fun w e inv legal => inv.step legal)
    (barrierInv_init cfg) legal

/-- Two jobs of one key, the first answered and the second handed down by the timer. -/
theorem barrier_run_guarantee_two_jobs :
    BarrierGuarantee ⟨4, 100000, 10000, true⟩
      (Machine.final (barrierStep ⟨4, 100000, 10000, true⟩) .init
        [.ask ⟨1, 4, 0, false, some [1, 2, 3, 4]⟩, .ask ⟨2, 7, 0, false, some [1, 2, 3, 4]⟩,
          .answer ⟨1, 4, 0, false, some [1, 2, 3, 4]⟩, .timer]) :=
  barrier_run_guarantee _ _ (by decide)

end Dtc.Chain
