import Mathlib.Logic.Function.Basic
import Mathlib.Tactic.Simps.Basic
import Mathlib.Tactic.Tauto
import Morf.Queue.Job

/-! The shared store of the job pipeline: the Redis keys of `queue/queue.go` and the
artifact store, with one atomic step for each command and each Lua script. -/

namespace Morf.Queue

open Morf.Lib Function

/-- `jobQueue` is `morf:job_queue`, `dlq` is `morf:dlq`, and the functions are the
families `morf:jobs:<id>`, `morf:jobs:status:<status>`, `morf:processing:<worker>`,
`morf:jobs:lease:<id>` and `morf:workers:<worker>` (its `last_heartbeat` field).
`objects` tells which keys hold an uploaded artifact, and `webhooks` lists the
deliveries handed to the dispatcher. -/
structure Store where
  jobs : JobId → Option JobHash := fun _ => none
  statusSet : JobStatus → JobId → Bool := fun _ _ => false
  jobQueue : List JobId := []
  processing : WorkerId → List JobId := fun _ => []
  dlq : List JobId := []
  lease : JobId → Option WorkerId := fun _ => none
  workers : WorkerId → Option Time := fun _ => none
  objects : StorageKey → Bool := fun _ => false
  webhooks : List (JobId × JobStatus) := []

inductive Remote
  | blmove (w : WorkerId)
  | lrem (w : WorkerId) (j : JobId)
  | rpush (j : JobId)
  | lrange (w : WorkerId)
  | hgetall (j : JobId)
  | hgetStatus (j : JobId)
  | hset (job : ScanJob)
  | hsetPhase (j : JobId) (phase : String)
  | expire (j : JobId)
  | srem (st : JobStatus) (j : JobId)
  | sadd (st : JobStatus) (j : JobId)
  | enqueueScript (job : ScanJob)
  | enqueueWithLimitScript (job : ScanJob) (limit count : Int)
  | moveToDLQScript (j : JobId)
  | retryDLQRemoveScript (j : JobId)
  | cancelJobScript (j : JobId) (now : Time)
  | setLease (j : JobId) (w : WorkerId)
  | getLease (j : JobId)
  | delLease (j : JobId)
  | hsetWorker (w : WorkerId) (now : Time)
  | hsetHeartbeat (w : WorkerId) (now : Time)
  | hgetHeartbeat (w : WorkerId)
  | delWorker (w : WorkerId)
  | put (key : StorageKey)
  | delete (key : StorageKey)
  deriving DecidableEq

abbrev Remote.Answer : Remote → Type
  | .blmove _ => Option JobId
  | .lrem _ _ => Nat
  | .lrange _ => List JobId
  | .hgetall _ => Option JobHash
  | .hgetStatus _ => Option JobStatus
  | .enqueueWithLimitScript _ _ _ => Bool
  | .retryDLQRemoveScript _ => Bool
  | .cancelJobScript _ _ => Int
  | .getLease _ => Option WorkerId
  | .hgetHeartbeat _ => Option Time
  | _ => Unit

namespace Store

def status (σ : Store) (j : JobId) : Option JobStatus := (σ.jobs j).bind (·.status)

def hsetJob (σ : Store) (j : JobId) (new : JobHash) : Store :=
  { σ with jobs := update σ.jobs j (some (((σ.jobs j).getD {}).hset new)) }

def setStatus (σ : Store) (st : JobStatus) (j : JobId) (b : Bool) : Store :=
  { σ with statusSet := update σ.statusSet st (update (σ.statusSet st) j b) }

attribute [simps -fullyApplied jobs jobQueue processing dlq lease workers objects] setStatus
attribute [simps -fullyApplied jobQueue processing dlq lease workers objects] hsetJob

theorem hsetJob_self (σ : Store) (j : JobId) (new : JobHash) :
    (σ.hsetJob j new).jobs j = some (((σ.jobs j).getD {}).hset new) := update_self ..

theorem hsetJob_of_ne (σ : Store) (new : JobHash) (h : i ≠ j) :
    (σ.hsetJob j new).jobs i = σ.jobs i := update_of_ne h ..

def publish (σ : Store) (job : ScanJob) : Store :=
  let σ := (σ.hsetJob job.id job.toMap).setStatus job.status job.id true
  { σ with jobQueue := σ.jobQueue ++ [job.id] }

@[simp] theorem publish_jobs (σ : Store) (job : ScanJob) :
    (σ.publish job).jobs = (σ.hsetJob job.id job.toMap).jobs := rfl

@[simp] theorem publish_jobQueue (σ : Store) (job : ScanJob) :
    (σ.publish job).jobQueue = σ.jobQueue ++ [job.id] := rfl

attribute [simps -fullyApplied processing dlq lease workers objects] publish

def cancelled (now : Time) : JobHash where
  status := some .cancelled
  failedAt := some (some now)
  error := some "Job cancelled by user"

/-- `cancelJobScript`: 0 for a missing hash, -1 for a status that cannot be
cancelled, 1 after the transition.  A queued job also leaves the queue. -/
def cancel (σ : Store) (j : JobId) (now : Time) : Int × Store :=
  match σ.jobs j with
  | none => (0, σ)
  | some h =>
    if h.status ≠ some .queued ∧ h.status ≠ some .processing then (-1, σ)
    else
      let σ' := ((σ.hsetJob j (cancelled now)).setStatus .queued j false).setStatus .processing j false
      let σ' := σ'.setStatus .cancelled j true
      (1, if h.status = some .queued then { σ' with jobQueue := σ'.jobQueue.erase j } else σ')

theorem cancel_cases (σ : Store) (j : JobId) (now : Time) :
    ((σ.cancel j now).1 ≠ 1 ∧ (σ.cancel j now).2 = σ) ∨
      ∃ h, σ.jobs j = some h ∧ (h.status = some .queued ∨ h.status = some .processing) ∧
        (σ.cancel j now).1 = 1 ∧
        (σ.cancel j now).2.jobs = (σ.hsetJob j (cancelled now)).jobs ∧
        (σ.cancel j now).2.jobQueue =
          (if h.status = some .queued then σ.jobQueue.erase j else σ.jobQueue) ∧
        (σ.cancel j now).2.processing = σ.processing ∧ (σ.cancel j now).2.dlq = σ.dlq ∧
        (σ.cancel j now).2.lease = σ.lease ∧ (σ.cancel j now).2.workers = σ.workers ∧
        (σ.cancel j now).2.objects = σ.objects := by
  unfold cancel
  cases hj : σ.jobs j with
  | none => exact .inl ⟨by simp, rfl⟩
  | some h =>
    dsimp only
    split
    case isTrue => exact .inl ⟨by simp, rfl⟩
    case isFalse hs =>
      refine .inr ⟨h, rfl, by tauto, rfl, ?_⟩
      split <;> simp

def apply (σ : Store) : (c : Remote) → c.Answer × Store
  | .blmove w =>
    match σ.jobQueue with
    | [] => (none, σ)
    | j :: q => (some j, { σ with
        jobQueue := q
        processing := update σ.processing w (σ.processing w ++ [j]) })
  | .lrem w j => ((if j ∈ σ.processing w then 1 else 0 : Nat), { σ with
      processing := update σ.processing w ((σ.processing w).erase j) })
  | .rpush j => ((), { σ with jobQueue := σ.jobQueue ++ [j] })
  | .lrange w => (σ.processing w, σ)
  | .hgetall j => (σ.jobs j, σ)
  | .hgetStatus j => (σ.status j, σ)
  | .hset job => ((), σ.hsetJob job.id job.toMap)
  | .hsetPhase j phase => ((), σ.hsetJob j { phase := some phase })
  | .expire _ => ((), σ)
  | .srem st j => ((), σ.setStatus st j false)
  | .sadd st j => ((), σ.setStatus st j true)
  | .enqueueScript job => ((), σ.publish job)
  | .enqueueWithLimitScript job limit count =>
    if 0 < limit ∧ limit < (σ.jobQueue.length : Int) + count then (false, σ)
    else (true, σ.publish job)
  | .moveToDLQScript j =>
    ((), { ((σ.setStatus .queued j false).setStatus .processing j false).setStatus .failed j false
      with dlq := j :: σ.dlq })
  | .retryDLQRemoveScript j => (decide (j ∈ σ.dlq), { σ with dlq := σ.dlq.erase j })
  | .cancelJobScript j now => σ.cancel j now
  | .setLease j w => ((), { σ with lease := update σ.lease j (some w) })
  | .getLease j => (σ.lease j, σ)
  | .delLease j => ((), { σ with lease := update σ.lease j none })
  | .hsetWorker w now => ((), { σ with workers := update σ.workers w (some now) })
  | .hsetHeartbeat w now => ((), { σ with workers := update σ.workers w (some now) })
  | .hgetHeartbeat w => (σ.workers w, σ)
  | .delWorker w => ((), { σ with workers := update σ.workers w none })
  | .put key => ((), { σ with objects := update σ.objects key true })
  | .delete key => ((), { σ with objects := update σ.objects key false })

end Store

structure ScanError where
  nonRetryable : Bool := false
  retryable : Bool := false
  msg : String
  deriving DecidableEq

structure ScanResult where
  marshalled : Except String String

/-- How one stage of a scan ends: with what the scan would return if nothing were left
to do, with a result that ends it early, or with a failure.  `deadline` tells whether
the scan context had expired by then. -/
inductive Stage
  | next (result : ScanResult)
  | done (result : ScanResult)
  | fail (err : ScanError) (deadline : Bool)
  | panic (msg : String)

/-- Everything a program of the pipeline asks of its surroundings: a remote command,
a page of `SCAN morf:workers:*`, the clock, one stage of the external analysis of an
artifact, or a webhook delivery. -/
inductive Cmd
  | remote (c : Remote)
  | scanWorkers (cursor : Nat)
  | now
  | analyze (job : ScanJob) (phase : String)
  | webhook (j : JobId) (status : JobStatus)

abbrev Reply : Cmd → Type
  | .remote c => Except String c.Answer
  | .scanWorkers _ => Except String (List WorkerId × Nat)
  | .now => Time
  | .analyze _ _ => Stage
  | .webhook _ _ => Unit

/-- The choices of the environment: a command succeeds or fails with an error text,
and what the clock, the tools and `SCAN` answer. -/
inductive Env
  | ok
  | fail (msg : String)
  | time (t : Time)
  | stage (s : Stage)
  | page (keys : List WorkerId) (next : Nat)

/-- One atomic step.  A failed command leaves the store unchanged; `SCAN` only
reports workers that are registered. -/
def Store.exec (σ : Store) : (c : Cmd) → Env → Option (Reply c × Store)
  | .remote c, .ok => some (.ok (σ.apply c).1, (σ.apply c).2)
  | .remote _, .fail m => some (.error m, σ)
  | .scanWorkers _, .page ks n =>
    if ks.all (fun w => (σ.workers w).isSome) then some (.ok (ks, n), σ) else none
  | .scanWorkers _, .fail m => some (.error m, σ)
  | .now, .time t => some (t, σ)
  | .analyze _ _, .stage s => some (s, σ)
  | .webhook j st, .ok => some ((), { σ with webhooks := σ.webhooks ++ [(j, st)] })
  | _, _ => none

def Store.Exec (σ : Store) (c : Cmd) (r : Reply c) (σ' : Store) : Prop :=
  ∃ e, σ.exec c e = some (r, σ')

theorem Store.Exec.remote {σ' : Store} {r : Reply (.remote c)} (h : σ.Exec (.remote c) r σ') :
    (r = .ok (σ.apply c).1 ∧ σ' = (σ.apply c).2) ∨ ((∃ m, r = .error m) ∧ σ' = σ) := by
  obtain ⟨e, h⟩ := h
  cases e with
  | ok =>
    cases h
    exact .inl ⟨rfl, rfl⟩
  | fail m =>
    cases h
    exact .inr ⟨⟨m, rfl⟩, rfl⟩
  | _ => cases h

theorem Store.Exec.ok {σ : Store} {a : c.Answer} (h : σ.Exec (.remote c) (.ok a) σ') :
    a = (σ.apply c).1 ∧ σ' = (σ.apply c).2 := by
  obtain ⟨hr, rfl⟩ | ⟨⟨m, hr⟩, -⟩ := h.remote
  · cases hr
    exact ⟨rfl, rfl⟩
  · cases hr

theorem Store.Exec.error {σ' : Store} (h : σ.Exec (.remote c) (.error m) σ') : σ' = σ := by
  obtain ⟨hr, -⟩ | ⟨-, rfl⟩ := h.remote
  · cases hr
  · rfl

/-- What a step does to the store: the remote command, one more delivery, or nothing. -/
inductive Store.Effect (σ : Store) : (c : Cmd) → Reply c → Store → Prop
  | ok (c : Remote) : σ.Effect (.remote c) (.ok (σ.apply c).1) (σ.apply c).2
  | webhook (j : JobId) (st : JobStatus) :
    σ.Effect (.webhook j st) () { σ with webhooks := σ.webhooks ++ [(j, st)] }
  | none (c : Cmd) (r : Reply c) : σ.Effect c r σ

theorem Store.Exec.effect {σ : Store} {r : Reply c} (h : σ.Exec c r σ') : σ.Effect c r σ' := by
  obtain ⟨e, h⟩ := h
  cases c <;> cases e
  case scanWorkers.page =>
    simp only [exec] at h
    split at h <;> cases h
    exact .none ..
  all_goals cases h
  all_goals first | exact .ok _ | exact .webhook .. | exact .none ..

theorem Store.blmove_some {σ : Store} (h : some j = (σ.apply (.blmove w)).1) :
    ∃ q, σ.jobQueue = j :: q ∧ (σ.apply (.blmove w)).2 = { σ with
      jobQueue := q
      processing := update σ.processing w (σ.processing w ++ [j]) } := by
  cases hq : σ.jobQueue with
  | nil => simp [apply, hq] at h
  | cons i q =>
    simp only [apply, hq, Option.some.injEq] at h ⊢
    subst h
    exact ⟨q, rfl, rfl⟩

theorem Store.Exec.blmove_none {σ' : Store} (h : σ.Exec (.remote (.blmove w)) (.ok none) σ') :
    σ' = σ := by
  obtain ⟨hr, rfl⟩ := h.ok
  cases hq : σ.jobQueue with
  | nil => simp [apply, hq]
  | cons i q => simp [apply, hq] at hr

theorem Store.Exec.published {σ : Store}
    (h : σ.Exec (.remote (.enqueueWithLimitScript job limit count)) (.ok true) σ') :
    σ' = σ.publish job := by
  obtain ⟨hr, rfl⟩ := h.ok
  simp only [apply] at hr ⊢
  split at hr
  · cases hr
  · rw [if_neg ‹_›]

theorem Store.Exec.refused {σ' : Store}
    (h : σ.Exec (.remote (.enqueueWithLimitScript job limit count)) (.ok false) σ') : σ' = σ := by
  obtain ⟨hr, rfl⟩ := h.ok
  simp only [apply] at hr ⊢
  split at hr
  · rw [if_pos ‹_›]
  · cases hr

/-- Commands that leave the lists, the leases, the registrations, the artifacts and
every field of the job hashes alone. -/
def Cmd.inert : Cmd → Bool
  | .now | .webhook _ _ => true
  | .remote (.hgetStatus _) | .remote (.expire _) => true
  | .remote (.srem _ _) | .remote (.sadd _ _) => true
  | _ => false

/-- Two stores that differ at most in the status sets and in the webhook log. -/
structure Store.Same (σ σ' : Store) : Prop where
  jobs : σ'.jobs = σ.jobs
  jobQueue : σ'.jobQueue = σ.jobQueue
  processing : σ'.processing = σ.processing
  dlq : σ'.dlq = σ.dlq
  lease : σ'.lease = σ.lease
  workers : σ'.workers = σ.workers
  objects : σ'.objects = σ.objects

theorem Store.Same.refl (σ : Store) : σ.Same σ := ⟨rfl, rfl, rfl, rfl, rfl, rfl, rfl⟩

theorem Store.Exec.inert {σ : Store} {r : Reply c} (h : σ.Exec c r σ') (hc : c.inert = true) :
    σ.Same σ' := by
  cases h.effect with
  | ok c => cases c <;> first | exact ⟨rfl, rfl, rfl, rfl, rfl, rfl, rfl⟩ | cases hc
  | _ => exact ⟨rfl, rfl, rfl, rfl, rfl, rfl, rfl⟩

theorem Store.Exec.analyze {σ' : Store} {job : ScanJob} (h : σ.Exec (.analyze job phase) st σ') :
    σ' = σ := by
  cases h.effect
  rfl

/-- Commands that leave the job hashes, the queue, the processing lists and the leases
alone. -/
def Cmd.quiet : Cmd → Bool
  | .remote (.blmove _) | .remote (.lrem _ _) | .remote (.rpush _) => false
  | .remote (.hset _) | .remote (.hsetPhase _ _) => false
  | .remote (.enqueueScript _) | .remote (.enqueueWithLimitScript _ _ _) => false
  | .remote (.cancelJobScript _ _) => false
  | .remote (.setLease _ _) | .remote (.delLease _) => false
  | _ => true

structure Store.Alike (σ σ' : Store) : Prop where
  jobs : σ'.jobs = σ.jobs
  jobQueue : σ'.jobQueue = σ.jobQueue
  processing : σ'.processing = σ.processing
  lease : σ'.lease = σ.lease

theorem Store.Alike.refl (σ : Store) : σ.Alike σ := ⟨rfl, rfl, rfl, rfl⟩

theorem Store.Exec.quiet {σ : Store} {r : Reply c} (h : σ.Exec c r σ') (hc : c.quiet = true) :
    σ.Alike σ' := by
  cases h.effect with
  | ok c => cases c <;> first | exact ⟨rfl, rfl, rfl, rfl⟩ | cases hc
  | _ => exact ⟨rfl, rfl, rfl, rfl⟩

theorem Cmd.quiet_of_inert {c : Cmd} (h : c.inert = true) : c.quiet = true := by
  cases c with
  | remote c => cases c <;> first | rfl | cases h
  | _ => rfl

abbrev Op := Prog Cmd Reply

def remote (c : Remote) : Op (Except String c.Answer) := .call (.remote c) .ret

@[simp] theorem remote_bind (c : Remote) (f : Except String c.Answer → Op α) :
    (remote c >>= f) = .call (.remote c) f := rfl

/-! The operations of `queue/queue.go` as programs over the store. -/

/-- `noJob` and `queueFull` are the sentinels `ErrNoJob` and `ErrQueueFull`. -/
inductive QueueError
  | noJob
  | queueFull
  | text (msg : String)
  deriving DecidableEq

def QueueError.msg : QueueError → String
  | .noJob => "no job available"
  | .queueFull => "queue is full"
  | .text m => m

def now : Op Time := .call .now .ret

@[simp] theorem now_bind (f : Time → Op α) : (now >>= f) = .call .now f := rfl

def enqueueJobAtomic (job : ScanJob) : Op (Except QueueError Unit) := do
  match ← remote (.enqueueScript job) with
  | .error e => return .error (.text ("failed to atomically enqueue job: " ++ e))
  | .ok _ => return .ok ()

def enqueueJobAtomicWithLimit (job : ScanJob) (limit count : Int) :
    Op (Except QueueError Unit) := do
  match ← remote (.enqueueWithLimitScript job limit count) with
  | .error e => return .error (.text ("failed to atomically enqueue job: " ++ e))
  | .ok admitted => return if admitted then .ok () else .error .queueFull

def pushJob (j : JobId) : Op (Except String Unit) := remote (.rpush j)

def popJobReliable (w : WorkerId) : Op (Except QueueError JobId) := do
  match ← remote (.blmove w) with
  | .error e => return .error (.text e)
  | .ok none => return .error .noJob
  | .ok (some j) => return .ok j

def ackJob (w : WorkerId) (j : JobId) : Op (Except String Nat) := remote (.lrem w j)

/-- `RequeueProcessing`: only a call that removed the entry pushes it again. -/
def requeueProcessing (w : WorkerId) (j : JobId) : Op (Except QueueError Unit) := do
  match ← remote (.lrem w j) with
  | .error e => return .error (.text ("failed to remove from processing list: " ++ e))
  | .ok n =>
    if n = 0 then return .ok ()
    else
      match ← remote (.rpush j) with
      | .error e => return .error (.text ("failed to requeue job: " ++ e))
      | .ok _ => return .ok ()

def getJob (j : JobId) : Op (Except QueueError ScanJob) := do
  match ← remote (.hgetall j) with
  | .error e => return .error (.text ("failed to get job: " ++ e))
  | .ok none => return .error (.text ("job not found: " ++ j))
  | .ok (some h) => return .ok (JobHash.fromMap h)

def sremAll (j : JobId) : List JobStatus → Op Unit
  | [] => return ()
  | st :: sts => do
    let _ ← remote (.srem st j)
    sremAll j sts

/-- The move between status sets in `UpdateJob`.  `old` is the status read before the
`HSET`, and the empty string after a failed read. -/
def moveStatusSet (job : ScanJob) (old : JobStatus) : Op Unit :=
  if old ≠ .unset ∧ old ≠ job.status then do
    let _ ← remote (.srem old job.id)
    let _ ← remote (.sadd job.status job.id)
  else return ()

def updateSets (job : ScanJob) (old : JobStatus) : Op Unit := do
  let _ ← remote (.expire job.id)
  moveStatusSet job old
  if job.status.isTerminal then sremAll job.id nonTerminalStatuses else return ()

def oldStatus : Except String (Option JobStatus) → JobStatus
  | .ok (some st) => st
  | .ok none | .error _ => .unset

def updateJob (job : ScanJob) : Op (Except QueueError Unit) := do
  let old ← remote (.hgetStatus job.id)
  match ← remote (.hset job) with
  | .error e => return .error (.text ("failed to update job: " ++ e))
  | .ok _ =>
    updateSets job (oldStatus old)
    return .ok ()

def moveToDLQ (j : JobId) : Op (Except QueueError Unit) := do
  match ← remote (.moveToDLQScript j) with
  | .error e => return .error (.text ("failed to move to DLQ: " ++ e))
  | .ok _ => return .ok ()

/-- `SetJobPhase`; every caller ignores the error. -/
def setJobPhase (j : JobId) (phase : String) : Op Unit := do
  let _ ← remote (.hsetPhase j phase)

def setJobLease (j : JobId) (w : WorkerId) : Op (Except String Unit) := remote (.setLease j w)

/-- `CheckJobLease`: an absent lease owns.  The error is kept apart, as the callers
treat it as owning too. -/
def checkJobLease (j : JobId) (w : WorkerId) : Op (Except String Bool) := do
  match ← remote (.getLease j) with
  | .error e => return .error e
  | .ok none => return .ok true
  | .ok (some owner) => return .ok (owner == "" || owner == w)

def clearJobLease (j : JobId) : Op Unit := do
  let _ ← remote (.delLease j)

def registerWorker (w : WorkerId) : Op (Except String Unit) := do
  let t ← now
  remote (.hsetWorker w t)

def unregisterWorker (w : WorkerId) : Op (Except String Unit) := remote (.delWorker w)

def updateWorkerHeartbeat (w : WorkerId) : Op (Except String Unit) := do
  let t ← now
  remote (.hsetHeartbeat w t)

/-- The assignments of `RetryDLQJob`. -/
def ScanJob.resubmitted (job : ScanJob) : ScanJob :=
  { job with
    status := .queued, retryCount := 0, error := "", startedAt := none, failedAt := none,
    workerID := "" }

def retryDLQJob (j : JobId) : Op (Except QueueError Unit) := do
  match ← remote (.retryDLQRemoveScript j) with
  | .error e => return .error (.text ("failed to remove from DLQ: " ++ e))
  | .ok removed =>
    if removed then
      match ← getJob j with
      | .error e => return .error (.text ("failed to get job: " ++ e.msg))
      | .ok job =>
        match ← enqueueJobAtomic job.resubmitted with
        | .error e => return .error (.text ("failed to re-enqueue job: " ++ e.msg))
        | .ok _ => return .ok ()
    else return .error (.text ("job not found in DLQ: " ++ j))

def cancelJob (j : JobId) : Op (Except QueueError Unit) := do
  let t ← now
  match ← remote (.cancelJobScript j t) with
  | .error e => return .error (.text ("failed to cancel job: " ++ e))
  | .ok res =>
    if res = 0 then return .error (.text ("job not found: " ++ j))
    else if res = -1 then
      return .error (.text "cannot cancel job: not in a queued or processing state")
    else return .ok ()

end Morf.Queue
