import Morf.Queue.Worker

/-! The life of one delivery, as the commands of a worker show it.  `Delivery` is the
abstract view of a worker between popping a job and letting go of it; the programs of
`Worker` follow it, so that statements about runs need not look into them. -/

namespace Morf.Queue

open Morf.Lib

/-- Where a worker stands with the job it has popped.  `job` is the worker's own copy
of the job record. -/
inductive Delivery
  | booting
  | idle
  | popped (j : JobId)
  | read (j : JobId) (job : ScanJob)
  | claimed (j : JobId) (job : ScanJob)
  | leased (j : JobId) (job : ScanJob)
  | scanning (j : JobId) (job : ScanJob)
  | rechecking (j : JobId) (job : ScanJob)
  | succeeding (j : JobId) (job : ScanJob)
  | failing (j : JobId) (job : ScanJob)
  | completing (j : JobId) (job : ScanJob)
  | committed (j : JobId) (job : ScanJob)
  | completed (j : JobId) (job : ScanJob)
  | requeued (j : JobId) (job : ScanJob)
  | buried (j : JobId) (job : ScanJob)
  | dropping (j : JobId) (job : ScanJob)
  | pushed (j : JobId)
  | closing (j : JobId)
  | kept (j : JobId)
  | leaving
  | left

def taken (w : WorkerId) : Except String (Option WorkerId) → Bool
  | .ok (some o) => !(o == "" || o == w)
  | .ok none | .error _ => false

def pickUp (j : JobId) (h : JobHash) : Delivery :=
  match h.fromMap.status with
  | .completed | .failed => .closing j
  | .cancelled => .dropping j h.fromMap
  | .unset | .queued | .processing => .read j h.fromMap

def claim (w : WorkerId) (job job' : ScanJob) : Prop :=
  job' = job.started w (job'.startedAt.getD 0)

def completion (job job' : ScanJob) : Prop :=
  job' = job.finished (job'.completedAt.getD 0) job'.result

def failure (job job' : ScanJob) : Prop :=
  job' = job.failedWith (job'.failedAt.getD 0) job'.error

def retry (maxRetries : Nat) (job job' : ScanJob) : Prop :=
  job' = (job.failedWith (job'.failedAt.getD 0) job'.error).backToQueue ∧
    job.retryCount + 1 < maxRetries

instance : Decidable (claim w job job') := inferInstanceAs (Decidable (_ = _))
instance : Decidable (completion job job') := inferInstanceAs (Decidable (_ = _))
instance : Decidable (failure job job') := inferInstanceAs (Decidable (_ = _))
instance : Decidable (retry n job job') := inferInstanceAs (Decidable (_ ∧ _))

def noArtifact (cfg : Config) (job : ScanJob) : Bool := job.storageKey == "" || !cfg.hasStore

def deliveryNext (cfg : Config) (w : WorkerId) : Protocol Cmd Reply Delivery := fun p c r =>
  if c.inert then some p else
  match p with
  | .booting =>
    match c with
    | .remote (.hsetWorker w' _) => if w' = w then some .idle else none
    | _ => none
  | .idle =>
    match c, r with
    | .remote (.blmove w'), .ok (some j) => if w' = w then some (.popped j) else none
    | .remote (.blmove w'), .ok none => if w' = w then some .idle else none
    | .remote (.blmove w'), .error _ => if w' = w then some .idle else none
    | _, _ => none
  | .popped j =>
    match c, r with
    | .remote (.hgetall j'), .ok (some h) => if j' = j then some (pickUp j h) else none
    | .remote (.hgetall j'), .ok none => if j' = j then some (.closing j) else none
    | .remote (.hgetall j'), .error _ => if j' = j then some (.closing j) else none
    | _, _ => none
  | .read j job =>
    match c, r with
    | .remote (.hset job'), .ok _ => if claim w job job' then some (.claimed j job') else none
    | .remote (.hset job'), .error _ => if claim w job job' then some (.closing j) else none
    | _, _ => none
  | .claimed j job =>
    match c with
    | .remote (.setLease j' w') => if j' = j ∧ w' = w then some (.leased j job) else none
    | _ => none
  | .leased j job =>
    match c, r with
    | .remote (.getLease j'), r =>
      if j' = j then some (if taken w r then .closing j else .scanning j job) else none
    | _, _ => none
  | .scanning j job =>
    match c, r with
    | .remote (.hsetPhase j' _), _ => if j' = job.id then some (.scanning j job) else none
    | .analyze _ phase, .next _ =>
      some (if phase = "compiling" then .succeeding j job else .scanning j job)
    | .analyze _ _, .done _ => some (.succeeding j job)
    | .analyze _ _, .fail _ _ => some (.rechecking j job)
    | .analyze _ _, .panic _ => some (.failing j job)
    | _, _ => none
  | .rechecking j job =>
    match c, r with
    | .remote (.hgetall j'), .ok (some h) =>
      if j' = j then
        some (if h.fromMap.status = .cancelled then .dropping j job else .failing j job)
      else none
    | .remote (.hgetall j'), .ok none => if j' = j then some (.failing j job) else none
    | .remote (.hgetall j'), .error _ => if j' = j then some (.failing j job) else none
    | _, _ => none
  | .succeeding j job =>
    match c, r with
    | .remote (.getLease j'), r =>
      if j' = job.id then some (if taken w r then .closing j else .completing j job) else none
    | _, _ => none
  | .failing j job =>
    match c, r with
    | .remote (.getLease j'), r =>
      if j' = job.id then some (if taken w r then .closing j else .committed j job) else none
    | _, _ => none
  | .completing j job =>
    match c, r with
    | .remote (.getLease j'), r =>
      if j' = job.id then some (if taken w r then .closing j else .committed j job) else none
    | .remote (.hset job'), .ok _ => if completion job job' then some (.completed j job') else none
    | .remote (.hset job'), .error _ => if completion job job' then some (.kept j) else none
    | _, _ => none
  | .committed j job =>
    match c, r with
    | .remote (.hset job'), .ok _ =>
      if retry cfg.maxRetries job job' then some (.requeued j job')
      else if failure job job' then some (.buried j job') else none
    | .remote (.hset job'), .error _ =>
      if retry cfg.maxRetries job job' ∨ failure job job' then some (.kept j) else none
    | _, _ => none
  | .completed j job =>
    match c with
    | .remote (.delLease j') => if j' = job.id then some (.dropping j job) else none
    | _ => none
  | .requeued j job =>
    match c, r with
    | .remote (.rpush j'), .ok _ => if j' = job.id then some (.pushed j) else none
    | .remote (.rpush j'), .error _ => if j' = job.id then some (.closing j) else none
    | _, _ => none
  | .buried j job =>
    match c with
    | .remote (.moveToDLQScript j') => if j' = job.id then some (.dropping j job) else none
    | _ => none
  | .dropping j job =>
    match c with
    | .remote (.delete key) =>
      if key = job.storageKey ∧ noArtifact cfg job = false then some (.closing j) else none
    | .remote (.lrem w' j') => if w' = w ∧ j' = j ∧ noArtifact cfg job then some .idle else none
    | _ => none
  | .pushed j =>
    match c with
    | .remote (.lrem w' j') => if w' = w ∧ j' = j then some .idle else none
    | _ => none
  | .closing j =>
    match c with
    | .remote (.lrem w' j') => if w' = w ∧ j' = j then some .idle else none
    | _ => none
  | .leaving =>
    match c with
    | .remote (.delWorker w') => if w' = w then some .left else none
    | _ => none
  | .kept _ | .left => none

/-- What one command does to a delivery, guards included.  `deliveryNext_step` reads this
off `deliveryNext`, so that every invariant is a case analysis on the steps. -/
inductive Delivery.Step (cfg : Config) (w : WorkerId) :
    Delivery → (c : Cmd) → Reply c → Delivery → Prop
  | inert : c.inert = true → Step cfg w p c r p
  | pop : Step cfg w .idle (.remote (.blmove w)) (.ok (some j)) (.popped j)
  | popNone : Step cfg w .idle (.remote (.blmove w)) (.ok none) .idle
  | popError : Step cfg w .idle (.remote (.blmove w)) (.error m) .idle
  | register : Step cfg w .booting (.remote (.hsetWorker w t)) r .idle
  | pickUp : Step cfg w (.popped j) (.remote (.hgetall j)) (.ok (some h)) (pickUp j h)
  | missing : Step cfg w (.popped j) (.remote (.hgetall j)) (.ok none) (.closing j)
  | unread : Step cfg w (.popped j) (.remote (.hgetall j)) (.error m) (.closing j)
  | claim : claim w job job' →
      Step cfg w (.read j job) (.remote (.hset job')) (.ok u) (.claimed j job')
  | unclaimed : Queue.claim w job job' →
      Step cfg w (.read j job) (.remote (.hset job')) (.error m) (.closing j)
  | lease : Step cfg w (.claimed j job) (.remote (.setLease j w)) r (.leased j job)
  | taken : taken w r = true → Step cfg w (.leased j job) (.remote (.getLease j)) r (.closing j)
  | owned : Queue.taken w r = false →
      Step cfg w (.leased j job) (.remote (.getLease j)) r (.scanning j job)
  | phase : Step cfg w (.scanning j job) (.remote (.hsetPhase job.id ph)) r (.scanning j job)
  | stage : ph ≠ "compiling" →
      Step cfg w (.scanning j job) (.analyze job' ph) (.next res) (.scanning j job)
  | compiled : Step cfg w (.scanning j job) (.analyze job' "compiling") (.next res)
      (.succeeding j job)
  | scanned : Step cfg w (.scanning j job) (.analyze job' ph) (.done res) (.succeeding j job)
  | scanError : Step cfg w (.scanning j job) (.analyze job' ph) (.fail err d) (.rechecking j job)
  | panic : Step cfg w (.scanning j job) (.analyze job' ph) (.panic m) (.failing j job)
  | abort : h.fromMap.status = .cancelled →
      Step cfg w (.rechecking j job) (.remote (.hgetall j)) (.ok (some h)) (.dropping j job)
  | recheck : h.fromMap.status ≠ .cancelled →
      Step cfg w (.rechecking j job) (.remote (.hgetall j)) (.ok (some h)) (.failing j job)
  | recheckMissing : Step cfg w (.rechecking j job) (.remote (.hgetall j)) (.ok none)
      (.failing j job)
  | recheckError : Step cfg w (.rechecking j job) (.remote (.hgetall j)) (.error m)
      (.failing j job)
  | staleSuccess : Queue.taken w r = true →
      Step cfg w (.succeeding j job) (.remote (.getLease job.id)) r (.closing j)
  | success : Queue.taken w r = false →
      Step cfg w (.succeeding j job) (.remote (.getLease job.id)) r (.completing j job)
  | staleFailure : Queue.taken w r = true →
      Step cfg w (.failing j job) (.remote (.getLease job.id)) r (.closing j)
  | failure : Queue.taken w r = false →
      Step cfg w (.failing j job) (.remote (.getLease job.id)) r (.committed j job)
  | staleMarshal : Queue.taken w r = true →
      Step cfg w (.completing j job) (.remote (.getLease job.id)) r (.closing j)
  | marshal : Queue.taken w r = false →
      Step cfg w (.completing j job) (.remote (.getLease job.id)) r (.committed j job)
  | complete : completion job job' →
      Step cfg w (.completing j job) (.remote (.hset job')) (.ok u) (.completed j job')
  | completeError : completion job job' →
      Step cfg w (.completing j job) (.remote (.hset job')) (.error m) (.kept j)
  | requeue : retry cfg.maxRetries job job' →
      Step cfg w (.committed j job) (.remote (.hset job')) (.ok u) (.requeued j job')
  | bury : Queue.failure job job' →
      Step cfg w (.committed j job) (.remote (.hset job')) (.ok u) (.buried j job')
  | commitError : retry cfg.maxRetries job job' ∨ Queue.failure job job' →
      Step cfg w (.committed j job) (.remote (.hset job')) (.error m) (.kept j)
  | clear : Step cfg w (.completed j job) (.remote (.delLease job.id)) r (.dropping j job)
  | push : Step cfg w (.requeued j job) (.remote (.rpush job.id)) (.ok u) (.pushed j)
  | pushError : Step cfg w (.requeued j job) (.remote (.rpush job.id)) (.error m) (.closing j)
  | deadLetter : Step cfg w (.buried j job) (.remote (.moveToDLQScript job.id)) r (.dropping j job)
  | drop : noArtifact cfg job = false →
      Step cfg w (.dropping j job) (.remote (.delete job.storageKey)) r (.closing j)
  | ackDropped : noArtifact cfg job = true →
      Step cfg w (.dropping j job) (.remote (.lrem w j)) r .idle
  | ackPushed : Step cfg w (.pushed j) (.remote (.lrem w j)) r .idle
  | ack : Step cfg w (.closing j) (.remote (.lrem w j)) r .idle
  | unregister : Step cfg w .leaving (.remote (.delWorker w)) r .left

theorem deliveryNext_step {r : Reply c} (h : deliveryNext cfg w p c r = some p') :
    Delivery.Step cfg w p c r p' := by
  unfold deliveryNext at h
  split at h
  case isTrue hc =>
    cases h
    exact .inert hc
  case isFalse hc =>
    cases p with
    | kept | left => cases h
    | _ =>
      -- one goal for each command the position allows
      dsimp only at h
      split at h <;> grind [Delivery.Step]

variable {job : ScanJob}

theorem inert_obeys {k : Reply c → Op α} (hc : c.inert = true)
    (h : ∀ r, (k r).Obeys (deliveryNext cfg w) post p) :
    (Prog.call c k).Obeys (deliveryNext cfg w) post p :=
  fun r => ⟨p, if_pos hc, h r⟩

theorem sremAll_obeys (sts : List JobStatus) :
    (sremAll j sts).Obeys (deliveryNext cfg w) (fun m _ => m = p) p := by
  induction sts with
  | nil => rfl
  | cons st sts ih => exact inert_obeys rfl fun _ => ih

theorem moveStatusSet_obeys (old : JobStatus) :
    (moveStatusSet job old).Obeys (deliveryNext cfg w) (fun m _ => m = p) p := by
  unfold moveStatusSet
  split
  · exact inert_obeys rfl fun _ => inert_obeys rfl fun _ => rfl
  · rfl

theorem updateSets_obeys (old : JobStatus) :
    (updateSets job old).Obeys (deliveryNext cfg w) (fun m _ => m = p) p := by
  rw [updateSets, remote_bind]
  refine inert_obeys rfl fun _ => .bind ((moveStatusSet_obeys old).mono ?_)
  rintro _ _ rfl
  split
  · exact sremAll_obeys _
  · rfl

/-- Of all that `UpdateJob` does, only its `HSET` moves a delivery. -/
theorem updateJob_obeys
    (hok : ∃ m, deliveryNext cfg w p (.remote (.hset job)) (.ok ()) = some m ∧ post m (.ok ()))
    (herror : ∀ e, ∃ m, deliveryNext cfg w p (.remote (.hset job)) (.error e) = some m ∧
      ∀ e', post m (.error e')) : (updateJob job).Obeys (deliveryNext cfg w) post p := by
  rw [updateJob, remote_bind]
  refine inert_obeys rfl fun old => ?_
  rw [remote_bind]
  intro r
  cases r with
  | error e =>
    obtain ⟨m, hm, hp⟩ := herror e
    exact ⟨m, hm, hp _⟩
  | ok u =>
    obtain ⟨m, hm, hp⟩ := hok
    refine ⟨m, hm, .bind ((updateSets_obeys _).mono ?_)⟩
    rintro _ _ rfl
    exact hp

theorem dispatchWebhook_obeys :
    (dispatchWebhook job).Obeys (deliveryNext cfg w) (fun m _ => m = p) p := by
  unfold dispatchWebhook
  split
  · rfl
  · exact inert_obeys rfl fun _ => rfl

/-- The positions in which `processJob` runs its deferred acknowledgement, or skips it. -/
def Delivery.Settled (cfg : Config) (j : JobId) : Delivery → Bool → Prop
  | .closing j', true | .pushed j', true => j' = j
  | .dropping j' job, true => j' = j ∧ noArtifact cfg job = true
  | .kept _, false => True
  | _, _ => False

theorem webhook_then_obeys (hp : p.Settled cfg j b) :
    (do dispatchWebhook job; return b : Op Bool).Obeys (deliveryNext cfg w)
      (Delivery.Settled cfg j) p := by
  refine .bind (dispatchWebhook_obeys.mono ?_)
  rintro _ _ rfl
  exact hp

theorem deleteUploadedArtifact_obeys :
    (deleteUploadedArtifact cfg job).Obeys (deliveryNext cfg w)
      (fun m _ => m.Settled cfg j true) (.dropping j job) := by
  unfold deleteUploadedArtifact
  split
  case isTrue hk => exact ⟨rfl, by simp [noArtifact, hk]⟩
  case isFalse hk =>
    split
    case isTrue hs =>
      intro r
      have hn : noArtifact cfg job = false := by simp [noArtifact, hk, hs]
      exact ⟨.closing j, if_pos (And.intro rfl hn), rfl⟩
    case isFalse hs => exact ⟨rfl, by simp [noArtifact, hs]⟩

theorem checkJobLease_obeys (h : ∀ r, deliveryNext cfg w p (.remote (.getLease i)) r =
      some (if taken w r then fenced else owned)) (hfenced : post fenced (.ok false))
    (howned : ∀ a, a ≠ .ok false → post owned a) :
    (checkJobLease i w).Obeys (deliveryNext cfg w) post p := by
  rw [checkJobLease, remote_bind]
  intro r
  refine ⟨_, h r, ?_⟩
  rcases r with e | _ | o
  · exact howned _ nofun
  · exact howned _ nofun
  · cases ho : o == "" || o == w with
    | true =>
      simp only [taken, ho]
      exact howned _ (by simp)
    | false =>
      simp only [taken, ho]
      exact hfenced

theorem retryJob_obeys (h : job.retryCount + 1 < cfg.maxRetries) :
    (retryJob (job.failedWith t err).backToQueue).Obeys (deliveryNext cfg w)
      (Delivery.Settled cfg j) (.committed j job) := by
  have hr : retry cfg.maxRetries job (job.failedWith t err).backToQueue := ⟨rfl, h⟩
  refine .bind (updateJob_obeys ⟨.requeued j _, if_pos hr, ?_⟩
    fun e => ⟨.kept j, if_pos (Or.inl hr), fun e' => webhook_then_obeys trivial⟩)
  intro r
  cases r with
  | ok u => exact ⟨.pushed j, if_pos rfl, webhook_then_obeys rfl⟩
  | error e => exact ⟨.closing j, if_pos rfl, webhook_then_obeys rfl⟩

theorem drop_then_obeys :
    (do deleteUploadedArtifact cfg job; dispatchWebhook job; return true : Op Bool).Obeys
      (deliveryNext cfg w) (Delivery.Settled cfg j) (.dropping j job) :=
  .bind (deleteUploadedArtifact_obeys.mono fun _ _ hm => webhook_then_obeys hm)

theorem buryJob_obeys :
    (buryJob cfg (job.failedWith t err)).Obeys (deliveryNext cfg w)
      (Delivery.Settled cfg j) (.committed j job) := by
  have hf : failure job (job.failedWith t err) := rfl
  have hr : ¬retry cfg.maxRetries job (job.failedWith t err) := by
    intro hr
    have := congrArg ScanJob.status hr.1
    cases this
  refine .bind (updateJob_obeys ⟨.buried j _, (if_neg hr).trans (if_pos hf), ?_⟩
    fun e => ⟨.kept j, if_pos (Or.inr hf), fun e' => webhook_then_obeys trivial⟩)
  intro r
  refine ⟨.dropping j _, if_pos rfl, ?_⟩
  cases r with
  | ok u => exact drop_then_obeys
  | error e => exact drop_then_obeys

theorem completeJob_obeys :
    (completeJob cfg (job.finished t text)).Obeys (deliveryNext cfg w)
      (Delivery.Settled cfg j) (.completing j job) := by
  have hc : completion job (job.finished t text) := rfl
  exact .bind (updateJob_obeys
    ⟨.completed j _, if_pos hc, fun r => ⟨.dropping j _, if_pos rfl, drop_then_obeys⟩⟩
    fun e => ⟨.kept j, if_pos hc, fun e' => trivial⟩)

theorem handleJobFailure_obeys (err : ScanError)
    (hp : ∀ r, deliveryNext cfg w p (.remote (.getLease job.id)) r =
      some (if taken w r then .closing j else .committed j job)) :
    (handleJobFailure cfg w job err).Obeys (deliveryNext cfg w) (Delivery.Settled cfg j) p := by
  refine .bind (checkJobLease_obeys hp rfl fun a ha => ?_)
  split
  case h_1 => exact (ha rfl).elim
  case h_2 =>
    rw [now_bind]
    refine inert_obeys rfl fun t => ?_
    dsimp only
    split
    case isTrue hr => exact retryJob_obeys hr.2
    case isFalse => exact buryJob_obeys

theorem handleJobSuccess_obeys (result : ScanResult) :
    (handleJobSuccess cfg w job result).Obeys (deliveryNext cfg w) (Delivery.Settled cfg j)
      (.succeeding j job) := by
  refine .bind (checkJobLease_obeys (fun r => if_pos rfl) rfl fun a ha => ?_)
  split
  case h_1 => exact (ha rfl).elim
  case h_2 =>
    split
    case h_1 => exact handleJobFailure_obeys _ fun r => if_pos rfl
    case h_2 => exact inert_obeys rfl fun t => completeJob_obeys

def Delivery.Scanned (j : JobId) (job : ScanJob) (m : Delivery) : ScanOutcome → Prop
  | .done _ => m = .succeeding j job
  | .fail _ _ => m = .rechecking j job
  | .panic _ => m = .failing j job

theorem scanPhase_obeys (hk : ∀ r, (k r).Obeys (deliveryNext cfg w) (Delivery.Scanned j job)
      (if phase = "compiling" then .succeeding j job else .scanning j job)) :
    (scanPhase job phase k).Obeys (deliveryNext cfg w) (Delivery.Scanned j job)
      (.scanning j job) := by
  intro _
  refine ⟨.scanning j job, if_pos rfl, fun r => ?_⟩
  cases r with
  | next res => exact ⟨_, rfl, hk res⟩
  | done res => exact ⟨_, rfl, rfl⟩
  | fail err d => exact ⟨_, rfl, rfl⟩
  | panic m => exact ⟨_, rfl, rfl⟩

theorem scan_obeys :
    (scan job).Obeys (deliveryNext cfg w) (Delivery.Scanned j job) (.scanning j job) := by
  unfold scan
  split
  · exact scanPhase_obeys fun _ => scanPhase_obeys fun _ => scanPhase_obeys fun _ => rfl
  · exact scanPhase_obeys fun _ => scanPhase_obeys fun _ => scanPhase_obeys fun _ =>
      scanPhase_obeys fun _ => rfl

theorem finishJob_obeys (h : m.Scanned j job outcome) :
    (finishJob cfg w j job outcome).Obeys (deliveryNext cfg w) (Delivery.Settled cfg j) m := by
  cases outcome with
  | done result =>
    cases h
    exact handleJobSuccess_obeys result
  | panic msg =>
    cases h
    exact handleJobFailure_obeys _ fun r => if_pos rfl
  | fail err d =>
    cases h
    have hfail : (handleJobFailure cfg w job (scanError job err d)).Obeys (deliveryNext cfg w)
        (Delivery.Settled cfg j) (.failing j job) := handleJobFailure_obeys _ fun r => if_pos rfl
    intro r
    rcases r with e | _ | g
    · exact ⟨_, if_pos rfl, hfail⟩
    · exact ⟨_, if_pos rfl, hfail⟩
    · refine ⟨_, if_pos rfl, ?_⟩
      show Prog.Obeys _ _ (if g.fromMap.status = .cancelled then _ else _) _
      split
      · exact .bind (deleteUploadedArtifact_obeys.mono fun _ _ hm => hm)
      · exact hfail

theorem runJob_obeys :
    (runJob cfg w j job).Obeys (deliveryNext cfg w) (Delivery.Settled cfg j) (.read j job) := by
  rw [runJob, now_bind]
  refine inert_obeys rfl fun t => ?_
  have hc : claim w job (job.started w t) := rfl
  refine .bind (updateJob_obeys ⟨.claimed j (job.started w t), if_pos hc, ?_⟩
    fun e => ⟨.closing j, if_pos hc, fun e' => rfl⟩)
  rw [setJobLease, remote_bind]
  intro _
  refine ⟨.leased j (job.started w t), if_pos (And.intro rfl rfl), ?_⟩
  have hlease : ∀ r, deliveryNext cfg w (.leased j (job.started w t)) (.remote (.getLease j)) r =
      some (if taken w r then .closing j else .scanning j (job.started w t)) :=
    fun r => if_pos rfl
  refine .bind (checkJobLease_obeys hlease rfl fun a ha => ?_)
  split
  case h_1 => exact (ha rfl).elim
  case h_2 => exact .bind (scan_obeys.mono fun _ _ h => finishJob_obeys h)

theorem processBody_obeys :
    (processBody cfg w j).Obeys (deliveryNext cfg w) (Delivery.Settled cfg j) (.popped j) := by
  intro r
  rcases r with e | _ | g
  · exact ⟨_, if_pos rfl, rfl⟩
  · exact ⟨_, if_pos rfl, rfl⟩
  · refine ⟨_, if_pos rfl, ?_⟩
    show Prog.Obeys _ _ (if g.fromMap.status = .completed ∨ g.fromMap.status = .failed then _
      else if g.fromMap.status = .cancelled then _ else _) _
    unfold pickUp
    cases g.fromMap.status with
    | completed | failed => rfl
    | cancelled => exact .bind (deleteUploadedArtifact_obeys.mono fun _ _ hm => hm)
    | unset | queued | processing => exact runJob_obeys

def Delivery.resting : Delivery → Bool
  | .idle | .kept _ | .left => true
  | _ => false

theorem processJob_obeys :
    (processJob cfg w j).Obeys (deliveryNext cfg w) (fun m _ => m.resting = true)
      (.popped j) := by
  refine .bind (processBody_obeys.mono fun m b hm => ?_)
  cases b with
  | false =>
    cases m with
    | kept => rfl
    | _ => exact hm.elim
  | true =>
    intro r
    refine ⟨.idle, ?_, rfl⟩
    cases m with
    | closing | pushed =>
      cases hm
      exact if_pos (And.intro rfl rfl)
    | dropping j' job =>
      obtain ⟨rfl, hn⟩ := hm
      exact if_pos (And.intro rfl (And.intro rfl hn))
    | _ => exact hm.elim

theorem popAndProcess_obeys :
    (popAndProcess cfg w).Obeys (deliveryNext cfg w) (fun m _ => m.resting = true) .idle := by
  intro r
  rcases r with e | _ | j
  · exact ⟨.idle, if_pos rfl, rfl⟩
  · exact ⟨.idle, if_pos rfl, rfl⟩
  · exact ⟨.popped j, if_pos rfl, processJob_obeys⟩

theorem registerWorker_obeys :
    (registerWorker w).Obeys (deliveryNext cfg w) (fun m _ => m.resting = true) .booting := by
  rw [registerWorker, now_bind]
  exact inert_obeys rfl fun t _ => ⟨.idle, if_pos rfl, rfl⟩

theorem unregisterWorker_obeys :
    (unregisterWorker w).Obeys (deliveryNext cfg w) (fun m _ => m.resting = true) .leaving :=
  fun _ => ⟨.left, if_pos rfl, rfl⟩

end Morf.Queue
