import Morf.Lib.Machine
import Morf.Queue.Worker

/-! The life cycle of jobs, one operation of the queue at a time: the requests of the API, and what
`processJob` does to the queue between two of its operations. -/

namespace Morf.Queue

open Morf.Lib
open Function Option Function

def Store.perform {α : Type} (σ : Store) (now : Time) (op : Op α) : Option (α × Store) :=
  op.drive (fun σ c => σ.exec c (match c with
    | .now => .time now
    | _ => .ok)) σ

inductive Hand
  | idle
  | popped (j : JobId)
  | read (j : JobId) (job : ScanJob)
  | working (j : JobId) (job : ScanJob)
  | requeued (j : JobId) (job : ScanJob)
  | failed (j : JobId) (job : ScanJob)
  | finished (j : JobId)

structure Site where
  store : Store := {}
  hand : WorkerId → Hand := fun _ => .idle

inductive Turn
  | enqueue (job : ScanJob)
  | enqueueWithLimit (job : ScanJob) (limit count : Int)
  | retryDLQ (j : JobId)
  | cancel (j : JobId) (now : Time)
  | pop (w : WorkerId)
  | read (w : WorkerId)
  | claim (w : WorkerId) (now : Time)
  | complete (w : WorkerId) (now : Time) (resultJSON : String)
  | requeue (w : WorkerId) (now : Time) (err : String)
  | push (w : WorkerId)
  | bury (w : WorkerId) (now : Time) (err : String)
  | moveToDLQ (w : WorkerId)
  | leave (w : WorkerId)
  | ack (w : WorkerId)

namespace Site

def serve {α : Type} (s : Site) (now : Time) (op : Op α) : Option Site :=
  (s.store.perform now op).map fun (_, σ) => { s with store := σ }

def act {α : Type} (s : Site) (w : WorkerId) (op : Op α) (k : α → Hand) : Option Site :=
  (s.store.perform 0 op).map fun (a, σ) => ⟨σ, update s.hand w (k a)⟩

def isNew (s : Site) (job : ScanJob) : Bool := job.status = .queued && (s.store.jobs job.id).isNone

def step (s : Site) : Turn → Option Site
  | .enqueue job => if s.isNew job then s.serve 0 (enqueueJobAtomic job) else none
  | .enqueueWithLimit job limit count =>
    if s.isNew job then s.serve 0 (enqueueJobAtomicWithLimit job limit count) else none
  | .retryDLQ j => s.serve 0 (retryDLQJob j)
  | .cancel j now => s.serve now (cancelJob j)
  | .pop w =>
    match s.hand w with
    | .idle => s.act w (popJobReliable w) fun
      | .ok j => .popped j
      | .error _ => .idle
    | _ => none
  | .read w =>
    match s.hand w with
    | .popped j => s.act w (getJob j) fun
      | .ok job => if job.status.isTerminal then .finished j else .read j job
      | .error _ => .finished j
    | _ => none
  | .claim w now =>
    match s.hand w with
    | .read j job => s.act w (updateJob (job.started w now)) fun _ => .working j (job.started w now)
    | _ => none
  | .complete w now resultJSON =>
    match s.hand w with
    | .working j job => s.act w (updateJob (job.finished now resultJSON)) fun _ => .finished j
    | _ => none
  | .requeue w now err =>
    match s.hand w with
    | .working j job =>
      s.act w (updateJob (job.failedWith now err).backToQueue) fun _ =>
        .requeued j (job.failedWith now err).backToQueue
    | _ => none
  | .push w =>
    match s.hand w with
    | .requeued j job => s.act w (pushJob job.id) fun _ => .finished j
    | _ => none
  | .bury w now err =>
    match s.hand w with
    | .working j job => s.act w (updateJob (job.failedWith now err)) fun _ =>
        .failed j (job.failedWith now err)
    | _ => none
  | .moveToDLQ w =>
    match s.hand w with
    | .failed j job => s.act w (moveToDLQ job.id) fun _ => .finished j
    | _ => none
  -- the lease is lost, or the job was found cancelled when its scan failed
  | .leave w =>
    match s.hand w with
    | .working j _ => some { s with hand := update s.hand w (.finished j) }
    | _ => none
  | .ack w =>
    match s.hand w with
    | .finished j => s.act w (ackJob w j) fun _ => .idle
    | _ => none

def machine : Machine Site Turn := ⟨{}, step⟩

end Site

/-! What an operation does to the store. -/

namespace Store

variable {σ : Store}

def moved (old : Option JobStatus) (new : JobStatus) (member : JobStatus → Bool) :
    JobStatus → Bool :=
  let old := old.getD .unset
  let member := if old ≠ .unset ∧ old ≠ new then
      update (update member old false) new true
    else member
  if new.isTerminal then update (update member .queued false) .processing false
  else member

def updated (σ : Store) (job : ScanJob) : Store :=
  let old := (σ.status job.id).getD .unset
  let σ := σ.hsetJob job.id job.toMap
  let σ := if old ≠ .unset ∧ old ≠ job.status then
      (σ.setStatus old job.id false).setStatus job.status job.id true
    else σ
  if job.status.isTerminal then
    (σ.setStatus .queued job.id false).setStatus .processing job.id false
  else σ

theorem perform_call (c : Remote) (k : Reply (.remote c) → Op α) :
    σ.perform t (.call (.remote c) k) =
      (σ.apply c).2.perform t (k (.ok (σ.apply c).1)) := rfl

theorem perform_bind (op : Op α) (f : α → Op β) :
    σ.perform t (op >>= f) = (σ.perform t op).bind fun (a, σ') => σ'.perform t (f a) :=
  Prog.drive_bind op f σ

theorem perform_enqueueJobAtomicWithLimit (job : ScanJob) (limit count : Int) :
    ∃ a, σ.perform t (enqueueJobAtomicWithLimit job limit count) = some (a, σ) ∨
      σ.perform t (enqueueJobAtomicWithLimit job limit count) = some (a, σ.publish job) := by
  rw [enqueueJobAtomicWithLimit, remote_bind, perform_call]
  simp only [apply]
  split
  · exact ⟨_, .inl rfl⟩
  · exact ⟨_, .inr rfl⟩

theorem perform_getJob (hj : σ.jobs j = some h) :
    σ.perform t (getJob j) = some (.ok h.fromMap, σ) := by
  rw [getJob, remote_bind, perform_call, apply, hj]
  rfl

theorem perform_cancelJob (j : JobId) :
    ∃ a, σ.perform t (cancelJob j) = some (a, (σ.cancel j t).2) := by
  have h : σ.perform t (cancelJob j) = (σ.cancel j t).2.perform t
      (if (σ.cancel j t).1 = 0 then pure (.error (.text ("job not found: " ++ j)))
      else if (σ.cancel j t).1 = -1 then
        pure (.error (.text "cannot cancel job: not in a queued or processing state"))
      else pure (.ok ())) := rfl
  rw [h]
  split
  · exact ⟨_, rfl⟩
  · split <;> exact ⟨_, rfl⟩

theorem perform_popJobReliable_nil (hq : σ.jobQueue = []) :
    σ.perform t (popJobReliable w) = some (.error .noJob, σ) := by
  rw [popJobReliable, remote_bind, perform_call]
  simp only [apply, hq]
  rfl

theorem perform_popJobReliable_cons (hq : σ.jobQueue = j :: q) :
    σ.perform t (popJobReliable w) = some (.ok j, { σ with
      jobQueue := q
      processing := update σ.processing w (σ.processing w ++ [j]) }) := by
  rw [popJobReliable, remote_bind, perform_call]
  simp only [apply, hq]
  rfl

theorem perform_retryDLQJob_of_not_mem (hj : j ∉ σ.dlq) :
    ∃ a, σ.perform t (retryDLQJob j) = some (a, σ) := by
  rw [retryDLQJob, remote_bind, perform_call]
  simp only [apply, hj, decide_false, List.erase_of_not_mem hj, Bool.false_eq_true, if_false]
  exact ⟨_, rfl⟩

theorem perform_retryDLQJob (hj : j ∈ σ.dlq) (hh : σ.jobs j = some h) :
    ∃ a, σ.perform t (retryDLQJob j) =
      some (a, { σ with dlq := σ.dlq.erase j }.publish h.fromMap.resubmitted) := by
  have hget : ({ σ with dlq := σ.dlq.erase j } : Store).perform t (getJob j) =
      some (.ok h.fromMap, { σ with dlq := σ.dlq.erase j }) := perform_getJob hh
  rw [retryDLQJob, remote_bind, perform_call]
  simp only [apply, hj, decide_true, if_true]
  rw [perform_bind, hget]
  exact ⟨_, rfl⟩

theorem perform_updateJob (job : ScanJob) :
    σ.perform t (updateJob job) = some (.ok (), σ.updated job) := by
  have hold : oldStatus (.ok (σ.status job.id)) = (σ.status job.id).getD .unset := by
    cases σ.status job.id <;> rfl
  have h : σ.perform t (updateJob job) =
      ((σ.hsetJob job.id job.toMap).perform t
        (updateSets job (oldStatus (.ok (σ.status job.id))) >>= fun _ => pure (.ok ()))) := rfl
  rw [h, hold, perform_bind]
  unfold updateSets moveStatusSet updated
  generalize (σ.status job.id).getD .unset = old
  by_cases ho : old ≠ .unset ∧ old ≠ job.status <;> by_cases ht : job.status.isTerminal = true
  · simp only [if_pos ho, if_pos ht]
    rfl
  · simp only [if_pos ho, if_neg ht]
    rfl
  · simp only [if_neg ho, if_pos ht]
    rfl
  · simp only [if_neg ho, if_neg ht]
    rfl

theorem member_setStatus (st : JobStatus) (j : JobId) (b : Bool) :
    (fun st' => (σ.setStatus st j b).statusSet st' j) =
      update (fun st' => σ.statusSet st' j) st b := by
  funext st'
  by_cases h : st' = st
  · subst h
    simp [setStatus]
  · simp [setStatus, h]

theorem statusSet_setStatus_of_ne (st st' : JobStatus) (b : Bool) (h : i ≠ j) :
    (σ.setStatus st j b).statusSet st' i = σ.statusSet st' i := by
  by_cases hs : st' = st
  · subst hs
    simp [setStatus, h]
  · simp [setStatus, hs]

theorem updated_jobs (job : ScanJob) :
    (σ.updated job).jobs = (σ.hsetJob job.id job.toMap).jobs := by
  simp only [updated]
  split <;> split <;> rfl

theorem updated_jobQueue (job : ScanJob) : (σ.updated job).jobQueue = σ.jobQueue := by
  simp only [updated]
  split <;> split <;> rfl

theorem updated_dlq (job : ScanJob) : (σ.updated job).dlq = σ.dlq := by
  simp only [updated]
  split <;> split <;> rfl

theorem updated_member (job : ScanJob) :
    (fun st => (σ.updated job).statusSet st job.id) =
      moved (σ.status job.id) job.status fun st => σ.statusSet st job.id := by
  simp only [updated, moved]
  generalize (σ.status job.id).getD .unset = old
  by_cases ho : old ≠ .unset ∧ old ≠ job.status <;> by_cases ht : job.status.isTerminal = true
  · simp only [if_pos ho, if_pos ht, member_setStatus]
    rfl
  · simp only [if_pos ho, if_neg ht, member_setStatus]
    rfl
  · simp only [if_neg ho, if_pos ht, member_setStatus]
    rfl
  · simp only [if_neg ho, if_neg ht]
    rfl

theorem updated_of_ne (job : ScanJob) (h : i ≠ job.id) (st : JobStatus) :
    (σ.updated job).statusSet st i = σ.statusSet st i := by
  simp only [updated]
  split <;> split <;> simp [statusSet_setStatus_of_ne, hsetJob, h]

end Store

/-! One job, as the store and the workers show it. -/

def Hand.job : Hand → Option JobId
  | .popped j | .read j _ | .working j _ | .requeued j _ | .failed j _ => some j
  | .idle | .finished _ => none

def Hand.copy : Hand → Option ScanJob
  | .read _ job | .working _ job | .requeued _ job | .failed _ job => some job
  | .idle | .popped _ | .finished _ => none

def Hand.failing : Hand → Bool
  | .failed _ _ => true
  | _ => false

def Hand.about (j : JobId) (h : Hand) : Hand := if h.job = some j then h else .idle

/-- A job as the store and the workers show it: its hash, the status sets it is in, how often it is
on the queue and on the dead-letter list, and who is at work on it. -/
@[ext]
structure JobView where
  hash : Option JobHash
  member : JobStatus → Bool
  queued : Nat
  dead : Nat
  hand : WorkerId → Hand

def JobView.status (v : JobView) : Option JobStatus := v.hash.bind (·.status)

def Site.view (s : Site) (j : JobId) : JobView where
  hash := s.store.jobs j
  member st := s.store.statusSet st j
  queued := s.store.jobQueue.count j
  dead := s.store.dlq.count j
  hand w := (s.hand w).about j

inductive JobView.Step (j : JobId) (v : JobView) : JobView → Prop
  | same : Step j v v
  | publish {job : ScanJob} : v.hash = none → job.id = j → job.status = .queued →
      Step j v { v with
        hash := some (JobHash.hset {} job.toMap)
        member := update v.member .queued true
        queued := v.queued + 1 }
  | retry : 0 < v.dead → v.hash = some h →
      Step j v { v with
        hash := some (h.hset h.fromMap.resubmitted.toMap)
        member := update v.member .queued true
        queued := v.queued + 1
        dead := v.dead - 1 }
  | cancel {t : Time} : v.hash = some h → h.status = some .queued ∨ h.status = some .processing →
      Step j v { v with
        hash := some (h.hset (Store.cancelled t))
        member := update (update (update v.member .queued false)
          .processing false) .cancelled true
        queued := if h.status = some .queued then v.queued - 1 else v.queued }
  | pop : 0 < v.queued → v.hand w = .idle →
      Step j v { v with queued := v.queued - 1, hand := update v.hand w (.popped j) }
  | read : v.hand w = .popped j → v.hash = some h →
      Step j v { v with hand := update v.hand w (.read j h.fromMap) }
  | letGo : v.hand w ≠ .idle → Step j v { v with hand := update v.hand w .idle }
  | update {job : ScanJob} : (v.hand w).copy = some old → job.id = old.id → job.status ≠ .unset →
      (∀ c, next.copy = some c → c = job) → (next.failing = true → job.status = .failed) →
      Step j v { v with
        hash := some ((v.hash.getD {}).hset job.toMap)
        member := Store.moved v.status job.status v.member
        hand := update v.hand w next }
  | push : v.hand w ≠ .idle →
      Step j v { v with queued := v.queued + 1, hand := update v.hand w .idle }
  | bury : (v.hand w).failing = true →
      Step j v { v with
        member := update (update (update v.member .queued false)
          .processing false) .failed false
        dead := v.dead + 1
        hand := update v.hand w .idle }

inductive Place
  | nowhere
  | queued
  | dead
  | held (w : WorkerId) (h : Hand)

def Place.hand : Place → WorkerId → Hand
  | .held w h => update (fun _ => .idle) w h
  | _ => fun _ => .idle

def Place.Suits (j : JobId) (v : JobView) : Place → Prop
  | .nowhere => v.queued = 0 ∧ v.dead = 0
  | .queued => v.queued = 1 ∧ v.dead = 0 ∧ v.hash ≠ none
  | .dead => v.queued = 0 ∧ v.dead = 1 ∧ v.status = some .failed ∧ ∀ st, v.member st = false
  | .held _ h => v.queued = 0 ∧ v.dead = 0 ∧ v.hash ≠ none ∧ (∀ c, h.copy = some c → c.id = j) ∧
      (h.failing = true → v.status = some .failed)

structure JobView.Fine (j : JobId) (v : JobView) : Prop where
  sets : ∀ {st}, v.member st = true → v.status = some st
  unset : v.member .unset = false
  named : ∀ {h}, v.hash = some h → h.id = some j
  place : ∃ p : Place, v.hand = p.hand ∧ p.Suits j v

namespace JobView

variable {v : JobView}

theorem ne_idle_of_copy {h : Hand} (hc : h.copy = some job) : h ≠ .idle := by
  rintro rfl
  cases hc

theorem ne_idle_of_failing {h : Hand} (hf : h.failing = true) : h ≠ .idle := by
  rintro rfl
  cases hf

theorem Fine.hash_of_dead (hv : v.Fine j) (hd : 0 < v.dead) : ∃ h, v.hash = some h := by
  obtain ⟨p, -, hsuit⟩ := hv.place
  cases p with
  | dead =>
    obtain ⟨h, hh, -⟩ := bind_eq_some_iff.mp hsuit.2.2.1
    exact ⟨h, hh⟩
  | nowhere => exact absurd hsuit.2 (by omega)
  | queued => exact absurd hsuit.2.1 (by omega)
  | held w h => exact absurd hsuit.2.1 (by omega)

theorem Fine.held (hv : v.Fine j) (hw : v.hand w ≠ .idle) :
    v.hand = update (fun _ => .idle) w (v.hand w) ∧
      (Place.held w (v.hand w)).Suits j v := by
  obtain ⟨p, hp, hs⟩ := hv.place
  cases p with
  | held w' h =>
    have hp : v.hand = update (fun _ => .idle) w' h := hp
    by_cases hww : w = w'
    · subst hww
      have hh : v.hand w = h := by rw [hp, update_self]
      rw [hh]
      exact ⟨hp, hs⟩
    · rw [hp, update_of_ne hww] at hw
      exact absurd rfl hw
  | _ => exact absurd (by rw [hp]; rfl) hw

theorem Fine.hand_update (hv : v.Fine j) (hw : v.hand w ≠ .idle) (h : Hand) :
    update v.hand w h = (Place.held w h).hand := by
  rw [(hv.held hw).1, update_idem]
  rfl

theorem Fine.hand_idle (hv : v.Fine j) (hw : v.hand w ≠ .idle) :
    update v.hand w .idle = fun _ => .idle := by
  rw [(hv.held hw).1, update_idem, update_eq_self_iff]

theorem moved_self {member : JobStatus → Bool} (hsets : ∀ {st}, member st = true → old = some st)
    (hunset : member .unset = false) (h : Store.moved old new member st = true) : st = new := by
  have hcleared : ∀ {m : JobStatus → Bool},
      update (update m .queued false) .processing false st = true →
        m st = true := by
    intro m h
    by_cases hp : st = .processing
    · simp [hp] at h
    · by_cases hq : st = .queued
      · simp [hq] at h
      · simpa [hp, hq] using h
  have hmoved : (if old.getD .unset ≠ .unset ∧ old.getD .unset ≠ new then
      update (update member (old.getD .unset) false) new true
        else member) st = true := by
    simp only [Store.moved] at h
    split at h
    · exact hcleared h
    · exact h
  by_contra hne
  split at hmoved
  case isTrue =>
    rw [update_of_ne hne] at hmoved
    by_cases ho : st = old.getD .unset
    · simp [ho] at hmoved
    · rw [update_of_ne ho] at hmoved
      simp [hsets hmoved] at ho
  case isFalse hn =>
    have ho := hsets hmoved
    have hu : st ≠ .unset := by
      rintro rfl
      simp [hunset] at hmoved
    exact hn (by simp [ho, hu, hne])

theorem update_true {member : JobStatus → Bool} (h : update member st true st' = true) :
    st' = st ∨ member st' = true := by
  by_cases hs : st' = st
  · exact .inl hs
  · exact .inr (by simpa [hs] using h)

theorem update_false {member : JobStatus → Bool} (h : update member st false st' = true) :
    st' ≠ st ∧ member st' = true := by
  by_cases hs : st' = st
  · simp [hs] at h
  · exact ⟨hs, by simpa [hs] using h⟩

theorem Fine.step (hv : v.Fine j) (h : Step j v v') : v'.Fine j := by
  cases h with
  | same => exact hv
  | @publish job hh hid hs =>
    -- a job without a hash is nowhere, and in no status set
    have hnot : ∀ st, v.member st ≠ true := fun st hst => by simpa [status, hh] using hv.sets hst
    refine ⟨fun {st} hst => ?_, ?_, fun {h} hh' => ?_, ?_⟩
    · rcases update_true hst with rfl | hst
      · simp [status, hs]
      · exact absurd hst (hnot st)
    · simpa using hv.unset
    · obtain rfl := some.inj hh'
      simp [hid]
    · obtain ⟨p, hp, hsuit⟩ := hv.place
      cases p with
      | nowhere => exact ⟨.queued, hp, by simp [hsuit.1], hsuit.2, by simp⟩
      | queued => exact absurd hh hsuit.2.2
      | dead => simp [Place.Suits, status, hh] at hsuit
      | held w h => exact absurd hh hsuit.2.2.1
  | @retry h hd hh =>
    obtain ⟨p, hp, hsuit⟩ := hv.place
    have hid : h.fromMap.resubmitted.id = j := by
      show h.id.getD "" = j
      rw [hv.named hh]
      rfl
    cases p with
    | dead =>
      obtain ⟨hq, hd, -, hnot⟩ := hsuit
      refine ⟨fun {st} hst => ?_, by simpa using hv.unset, fun {h'} hh' => ?_,
        .queued, hp, by simp [hq], by simp [hd], by simp⟩
      · rcases update_true hst with rfl | hst
        · rfl
        · simp [hnot st] at hst
      · obtain rfl := some.inj hh'
        rw [hset_toMap_id, hid]
    | nowhere => exact absurd hsuit.2 (by omega)
    | queued => exact absurd hsuit.2.1 (by omega)
    | held w h => exact absurd hsuit.2.1 (by omega)
  | @cancel h t hh hs =>
    have hstatus : v.status = h.status := by simp [status, hh]
    refine ⟨fun {st} hst => ?_, by simpa using hv.unset, fun {h'} hh' => ?_, ?_⟩
    · rcases update_true hst with rfl | hst
      · rfl
      · -- a job that can be cancelled is in no other set
        obtain ⟨hp, hst⟩ := update_false hst
        obtain ⟨hq, hst⟩ := update_false hst
        have := hv.sets hst
        rw [hstatus] at this
        rcases hs with hs | hs <;> simp_all
    · obtain rfl := some.inj hh'
      have hid : (h.hset (Store.cancelled t)).id = h.id := rfl
      rw [hid, hv.named hh]
    · obtain ⟨p, hp, hsuit⟩ := hv.place
      cases p with
      | nowhere => exact ⟨.nowhere, hp, by simp [hsuit.1], hsuit.2⟩
      | queued =>
        by_cases hq : h.status = some .queued
        · exact ⟨.nowhere, hp, by simp [hq, hsuit.1], hsuit.2.1⟩
        · exact ⟨.queued, hp, by simp [hq, hsuit.1], hsuit.2.1, by simp⟩
      | dead =>
        have := hsuit.2.2.1
        rw [hstatus] at this
        rcases hs with hs | hs <;> simp_all
      | held w h' =>
        obtain ⟨hq, hd, -, hc, hf⟩ := hsuit
        refine ⟨.held w h', hp, by simp [hq], hd, by simp, hc, fun hf' => ?_⟩
        have := hf hf'
        rw [hstatus] at this
        rcases hs with hs | hs <;> simp_all
  | @pop w hq hw =>
    obtain ⟨p, hp, hsuit⟩ := hv.place
    cases p with
    | queued =>
      obtain ⟨hq, hd, hh⟩ := hsuit
      refine ⟨hv.sets, hv.unset, hv.named, .held w (.popped j), ?_, by simp [hq], hd, hh, ?_, ?_⟩
      · show update v.hand w _ = _
        rw [hp]
        rfl
      · intro c hc
        cases hc
      · intro hf
        cases hf
    | nowhere => exact absurd hsuit.1 (by omega)
    | dead => exact absurd hsuit.1 (by omega)
    | held w h => exact absurd hsuit.1 (by omega)
  | @read w h hw hh =>
    have hne : v.hand w ≠ .idle := by simp [hw]
    obtain ⟨-, hq, hd, hsome, -⟩ := hv.held hne
    refine ⟨hv.sets, hv.unset, hv.named, .held w (.read j h.fromMap), hv.hand_update hne _, hq, hd,
      hsome, fun c hc => ?_, fun hf => ?_⟩
    · obtain rfl := some.inj hc
      show h.id.getD "" = j
      rw [hv.named hh]
      rfl
    · cases hf
  | letGo hw =>
    obtain ⟨-, hq, hd, -⟩ := hv.held hw
    exact ⟨hv.sets, hv.unset, hv.named, .nowhere, hv.hand_idle hw, hq, hd⟩
  | @update w old next job hw hid hs hc hf =>
    have hne := ne_idle_of_copy hw
    obtain ⟨-, hq, hd, hsome, hcopy, -⟩ := hv.held hne
    have hj : job.id = j := hid.trans (hcopy old hw)
    refine ⟨fun {st} hst => ?_, ?_, fun {h'} hh' => ?_, .held w next, hv.hand_update hne _, hq, hd,
      by simp, fun c hc' => ?_, fun hf' => ?_⟩
    · rw [moved_self hv.sets hv.unset hst]
      rfl
    · rw [Bool.eq_false_iff]
      exact fun hst => hs (moved_self hv.sets hv.unset hst).symm
    · obtain rfl := some.inj hh'
      rw [hset_toMap_id, hj]
    · rw [hc c hc', hj]
    · rw [← hf hf']
      rfl
  | push hw =>
    obtain ⟨-, hq, hd, hsome, -⟩ := hv.held hw
    exact ⟨hv.sets, hv.unset, hv.named, .queued, hv.hand_idle hw, by simp [hq], hd, hsome⟩
  | @bury w hw =>
    have hne := ne_idle_of_failing hw
    obtain ⟨-, hq, hd, hsome, -, hf⟩ := hv.held hne
    have hfailed : v.status = some .failed := hf hw
    -- the only set that a failed job can be in is cleared
    have hnot : ∀ st, update (update (update v.member .queued false)
        .processing false) .failed false st ≠ true := by
      intro st hst
      obtain ⟨hne, hst⟩ := update_false hst
      have := hv.sets (update_false (update_false hst).2).2
      rw [hfailed] at this
      exact hne (some.inj this).symm
    exact ⟨fun hst => absurd hst (hnot _), by simpa using hnot .unset, hv.named, .dead,
      hv.hand_idle hne, hq, by simp [hd], hfailed, fun st => by simpa using hnot st⟩

end JobView

end Morf.Queue
