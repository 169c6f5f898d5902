import Morf.Queue.StatusSets

/-! The fields of a job record along its life cycle.  A retry keeps the error of the attempt that
has failed, so that a record is at odds with its status once such a job completes. -/

namespace Morf.Queue

open Morf.Lib Store

/-- The fields of a record do not contradict its status. -/
def ScanJob.Consistent (job : ScanJob) : Prop :=
  match job.status with
  | .completed => job.error = "" ∧ job.failedAt = none
  | .failed | .cancelled => job.error ≠ "" ∧ job.failedAt ≠ none ∧ job.completedAt = none
  | .queued => job.startedAt = none ∧ job.workerID = ""
  | .unset | .processing => True

structure ScanJob.Pending (job : ScanJob) : Prop where
  completedAt : job.completedAt = none
  error : job.error = "" ↔ job.retryCount = 0
  failedAt : job.failedAt = none ↔ job.retryCount = 0

structure ScanJob.Sound (job : ScanJob) : Prop where
  consistent : job.Consistent
  pending : job.status.isTerminal = false → job.Pending

structure ScanJob.Pristine (job : ScanJob) : Prop where
  status : job.status = .queued
  startedAt : job.startedAt = none
  completedAt : job.completedAt = none
  failedAt : job.failedAt = none
  error : job.error = ""
  workerID : job.workerID = ""
  retryCount : job.retryCount = 0

instance (job : ScanJob) : Decidable job.Pristine :=
  decidable_of_iff (job.status = .queued ∧ job.startedAt = none ∧ job.completedAt = none ∧
      job.failedAt = none ∧ job.error = "" ∧ job.workerID = "" ∧ job.retryCount = 0)
    ⟨fun ⟨a, b, c, d, e, f, g⟩ => ⟨a, b, c, d, e, f, g⟩,
      fun ⟨a, b, c, d, e, f, g⟩ => ⟨a, b, c, d, e, f, g⟩⟩

/-- Jobs are enqueued as they are created, and an error has a text. -/
def Turn.Regular : Turn → Prop
  | .enqueue job | .enqueueWithLimit job _ _ => job.Pristine
  | .requeue _ _ err | .bury _ _ err => err ≠ ""
  | _ => True

def Hand.failures : Hand → Nat
  | .working _ job => job.retryCount
  | _ => 0

def Turn.FirstTry (s : Site) : Turn → Prop
  | .complete w _ _ => (s.hand w).failures = 0
  | _ => True

instance : DecidablePred Turn.Regular
  | .enqueue job | .enqueueWithLimit job _ _ => inferInstanceAs (Decidable job.Pristine)
  | .requeue _ _ err | .bury _ _ err => inferInstanceAs (Decidable (err ≠ ""))
  | .retryDLQ _ | .cancel _ _ | .pop _ | .read _ | .claim _ _ | .complete _ _ _ | .push _
  | .moveToDLQ _ | .leave _ | .ack _ => .isTrue trivial

instance (s : Site) : DecidablePred (Turn.FirstTry s)
  | .complete w _ _ => inferInstanceAs (Decidable ((s.hand w).failures = 0))
  | .enqueue _ | .enqueueWithLimit _ _ _ | .requeue _ _ _ | .bury _ _ _ | .retryDLQ _ | .cancel _ _
  | .pop _ | .read _ | .claim _ _ | .push _ | .moveToDLQ _ | .leave _ | .ack _ => .isTrue trivial

def Hand.record : Hand → Option ScanJob
  | .read _ job | .working _ job => some job
  | _ => none

def Site.Consistent (s : Site) : Prop :=
  ∀ j h, s.store.jobs j = some h → h.fromMap.Consistent

structure Site.Sound (s : Site) : Prop where
  hash : ∀ j h, s.store.jobs j = some h → h.fromMap.Sound
  record : ∀ w job, (s.hand w).record = some job → job.Pending

/-! The assignments of the life cycle. -/

section Assignments

variable {job : ScanJob} {h : JobHash}

theorem ScanJob.Pristine.sound (hj : job.Pristine) : job.Sound where
  consistent := by
    rw [Consistent, hj.status]
    exact ⟨hj.startedAt, hj.workerID⟩
  pending _ := ⟨hj.completedAt, iff_of_true hj.error hj.retryCount,
    iff_of_true hj.failedAt hj.retryCount⟩

theorem ScanJob.Pending.started (hj : job.Pending) (w : WorkerId) (t : Time) :
    (job.started w t).Sound := ⟨trivial, fun _ => ⟨hj.completedAt, hj.error, hj.failedAt⟩⟩

/-- Completing a job does not clear its error. -/
theorem ScanJob.Pending.finished_iff (hj : job.Pending) (t : Time) (text : String) :
    (job.finished t text).Consistent ↔ job.retryCount = 0 := by
  have h : (job.finished t text).Consistent ↔ job.error = "" ∧ job.failedAt = none := Iff.rfl
  rw [h, hj.error, hj.failedAt, and_self]

theorem ScanJob.Pending.failedWith (hj : job.Pending) (he : err ≠ "") (t : Time) :
    (job.failedWith t err).Sound where
  consistent := ⟨he, nofun, hj.completedAt⟩
  pending := nofun

theorem ScanJob.Pending.backToQueue (hj : job.Pending) (he : err ≠ "") (t : Time) :
    (job.failedWith t err).backToQueue.Sound where
  consistent := ⟨rfl, rfl⟩
  pending _ := ⟨hj.completedAt, iff_of_false he (Nat.succ_ne_zero _),
    iff_of_false nofun (Nat.succ_ne_zero _)⟩

theorem ScanJob.Sound.resubmitted (hj : job.Sound) (hs : job.status = .failed) :
    job.resubmitted.Sound where
  consistent := ⟨rfl, rfl⟩
  pending _ := by
    have hc := hj.consistent
    rw [Consistent, hs] at hc
    exact ⟨hc.2.2, by simp [ScanJob.resubmitted], by simp [ScanJob.resubmitted]⟩

theorem JobHash.sound_cancelled (hj : h.fromMap.Sound)
    (hs : h.status = some .queued ∨ h.status = some .processing) :
    (h.hset (cancelled t)).fromMap.Sound where
  consistent := by
    have htext : "Job cancelled by user" ≠ "" := by decide
    refine ⟨htext, nofun, (hj.pending ?_).completedAt⟩
    rcases hs with hs | hs <;> rw [fromMap_status, hs] <;> rfl
  pending := nofun

theorem JobHash.sound_hset (hj : job.Sound) : (h.hset job.toMap).fromMap.Sound :=
  ⟨hj.consistent, fun hs =>
    ⟨(hj.pending hs).completedAt, (hj.pending hs).error, (hj.pending hs).failedAt⟩⟩

end Assignments

namespace Site

variable {s : Site} {l : Turn} {σ : Store}

theorem Sound.saved (hs : s.Sound) (hσ : σ.jobs = (s.store.hsetJob j new).jobs)
    (hnew : (((s.store.jobs j).getD {}).hset new).fromMap.Sound) :
    ∀ i h, σ.jobs i = some h → h.fromMap.Sound := by
  intro i h hi
  rw [hσ] at hi
  by_cases hij : i = j
  · subst hij
    rw [hsetJob_self] at hi
    obtain rfl := Option.some.inj hi
    exact hnew
  · rw [hsetJob_of_ne _ _ hij] at hi
    exact hs.hash i h hi

theorem Sound.move (hs : s.Sound) (hσ : ∀ i h, σ.jobs i = some h → h.fromMap.Sound)
    (hn : ∀ job, next.record = some job → job.Pending) :
    Sound ⟨σ, Function.update s.hand w next⟩ := by
  refine ⟨hσ, fun x job hx => ?_⟩
  by_cases hxw : x = w
  · subst hxw
    exact hn job (by simpa using hx)
  · exact hs.record x job (by simpa [hxw] using hx)

theorem Sound.rest (hs : s.Sound) (hσ : σ.jobs = s.store.jobs) (hn : next.record = none) :
    Sound ⟨σ, Function.update s.hand w next⟩ := by
  refine hs.move (fun i h hi => hs.hash i h (by rwa [← hσ])) fun job hj => ?_
  rw [hn] at hj
  cases hj

theorem Sound.update (hs : s.Sound) (hact : s.act w (updateJob job) (fun _ => next) = some t)
    (hj : job.Sound) (hn : ∀ job, next.record = some job → job.Pending) : t.Sound := by
  obtain rfl := act_eq (perform_updateJob job) hact
  exact hs.move (hs.saved (updated_jobs job) (JobHash.sound_hset hj)) hn

theorem Sound.settle (hs : s.Sound) (hact : s.act w (updateJob job) (fun _ => next) = some t)
    (hj : job.Sound) (hn : next.record = none) : t.Sound := by
  refine hs.update hact hj fun job' hj' => ?_
  rw [hn] at hj'
  cases hj'

theorem Sound.publish (hs : s.Sound) (hj : job.Sound) :
    Sound { s with store := s.store.publish job } :=
  ⟨hs.saved rfl (JobHash.sound_hset hj), hs.record⟩

/-- A job on the dead-letter list has failed. -/
theorem status_of_dlq (hf : (s.view j).Fine j) (hj : j ∈ s.store.dlq) :
    ∃ h, s.store.jobs j = some h ∧ h.fromMap.status = .failed := by
  have hpos : 0 < (s.view j).dead := List.count_pos_iff.mpr hj
  obtain ⟨p, -, hsuit⟩ := hf.place
  cases p with
  | dead =>
    obtain ⟨h, hh, hst⟩ := Option.bind_eq_some_iff.mp hsuit.2.2.1
    exact ⟨h, hh, by rw [fromMap_status, hst]; rfl⟩
  | nowhere => exact absurd hsuit.2 (Nat.ne_of_gt hpos)
  | queued | held => exact absurd hsuit.2.1 (Nat.ne_of_gt hpos)

theorem Sound.retry (hs : s.Sound) (hf : (s.view j).Fine j)
    (h : s.serve 0 (retryDLQJob j) = some t) : t.Sound := by
  by_cases hj : j ∈ s.store.dlq
  · obtain ⟨g, hg, hst⟩ := status_of_dlq hf hj
    obtain ⟨a, ha⟩ := perform_retryDLQJob (t := 0) hj hg
    rw [serve, ha] at h
    cases h
    have hnew : g.fromMap.resubmitted.Sound := (hs.hash j g hg).resubmitted hst
    exact Sound.publish (s := ⟨{ s.store with dlq := _ }, s.hand⟩) ⟨hs.hash, hs.record⟩ hnew
  · obtain ⟨a, ha⟩ := perform_retryDLQJob_of_not_mem (σ := s.store) (t := 0) hj
    rw [serve, ha] at h
    cases h
    exact hs

theorem Sound.cancel (hs : s.Sound) (now : Time) :
    Sound { s with store := (s.store.cancel j now).2 } := by
  obtain h | ⟨g, hg, hst, h⟩ := s.store.cancel_store j now
  · rw [h]
    exact hs
  · rw [h]
    have hnew : (((s.store.jobs j).getD {}).hset (cancelled now)).fromMap.Sound := by
      rw [hg]
      exact JobHash.sound_cancelled (hs.hash j g hg) hst
    exact ⟨hs.saved rfl hnew, hs.record⟩

theorem Sound.read (hs : s.Sound)
    (h : s.act w (getJob j) (fun
      | .ok job => if job.status.isTerminal then .finished j else .read j job
      | .error _ => .finished j) = some t) : t.Sound := by
  cases hj : s.store.jobs j with
  | none =>
    have hget : s.store.perform 0 (getJob j) =
        some (.error (.text ("job not found: " ++ j)), s.store) := by
      rw [getJob, remote_bind, perform_call, apply, hj]
      rfl
    obtain rfl := act_eq hget h
    exact hs.rest rfl rfl
  | some g =>
    obtain rfl := act_eq (perform_getJob hj) h
    dsimp only
    split
    case isTrue => exact hs.rest rfl rfl
    case isFalse ht =>
      refine hs.move hs.hash ?_
      rintro _ ⟨⟩
      exact (hs.hash j g hj).pending (Bool.eq_false_iff.mpr ht)

theorem Sound.step (hs : s.Sound) (hf : ∀ i, (s.view i).Fine i) (hr : l.Regular)
    (hl : l.FirstTry s) (h : s.step l = some t) : t.Sound := by
  have work : ∀ {w j job}, s.hand w = .working j job → job.Pending := fun hw =>
    hs.record _ _ (by rw [hw]; rfl)
  cases l <;> simp only [step] at h
  case enqueue job =>
    split at h <;> cases h
    exact hs.publish hr.sound
  case enqueueWithLimit job limit count =>
    split at h
    case isTrue =>
      obtain ⟨a, ha | ha⟩ :=
        perform_enqueueJobAtomicWithLimit (σ := s.store) (t := 0) job limit count
      · rw [serve, ha] at h
        cases h
        exact hs
      · rw [serve, ha] at h
        cases h
        exact hs.publish hr.sound
    case isFalse => cases h
  case retryDLQ j => exact hs.retry (hf j) h
  case cancel j now =>
    obtain ⟨a, ha⟩ := perform_cancelJob (σ := s.store) (t := now) j
    simp only [serve, ha] at h
    cases h
    exact hs.cancel now
  case pop w =>
    split at h
    case h_1 hw =>
      cases hq : s.store.jobQueue with
      | nil =>
        obtain rfl := act_eq (perform_popJobReliable_nil hq) h
        exact hs.rest rfl rfl
      | cons j q =>
        obtain rfl := act_eq (perform_popJobReliable_cons hq) h
        exact hs.rest rfl rfl
    case h_2 => cases h
  case read w =>
    split at h
    case h_1 j hw => exact hs.read h
    case h_2 => cases h
  case claim w now =>
    split at h
    case h_1 j job hw =>
      have hp : (job.started w now).Sound :=
        (hs.record w job (by rw [hw]; rfl)).started w now
      refine hs.update h hp ?_
      rintro _ ⟨⟩
      exact hp.pending rfl
    case h_2 => cases h
  case complete w now text =>
    split at h
    case h_1 j job hw =>
      have hfirst : job.retryCount = 0 := by
        rw [Turn.FirstTry, hw] at hl
        exact hl
      refine hs.settle h ⟨((work hw).finished_iff now text).mpr hfirst, ?_⟩ rfl
      intro hne
      cases hne
    case h_2 => cases h
  case requeue w now err =>
    split at h
    case h_1 j job hw => exact hs.settle h ((work hw).backToQueue hr now) rfl
    case h_2 => cases h
  case bury w now err =>
    split at h
    case h_1 j job hw => exact hs.settle h ((work hw).failedWith hr now) rfl
    case h_2 => cases h
  case push w =>
    split at h
    case h_1 j job hw =>
      obtain rfl := act_eq (σ := (s.store.apply (.rpush job.id)).2) rfl h
      exact hs.rest rfl rfl
    case h_2 => cases h
  case moveToDLQ w =>
    split at h
    case h_1 j job hw =>
      obtain rfl := act_eq (σ := (s.store.apply (.moveToDLQScript job.id)).2) rfl h
      exact hs.rest rfl rfl
    case h_2 => cases h
  case leave w =>
    split at h <;> cases h
    exact hs.rest rfl rfl
  case ack w =>
    split at h
    case h_1 j hw =>
      obtain rfl := act_eq (σ := (s.store.apply (.lrem w j)).2) rfl h
      exact hs.rest rfl rfl
    case h_2 => cases h

/-- A job that completes after a failed attempt keeps the error of that attempt. -/
theorem Sound.firstTry (hs : s.Sound) (h : s.step l = some t) (ht : t.Consistent) :
    l.FirstTry s := by
  cases l with
  | complete w now text =>
    simp only [Site.step] at h
    split at h
    case h_1 j job hw =>
      obtain rfl := act_eq (perform_updateJob _) h
      have hjob : (s.store.updated (job.finished now text)).jobs (job.finished now text).id =
          some (((s.store.jobs job.id).getD {}).hset (job.finished now text).toMap) := by
        rw [updated_jobs, hsetJob_self]
        rfl
      have hp : job.Pending := hs.record w job (by rw [hw]; rfl)
      rw [Turn.FirstTry, hw]
      exact (hp.finished_iff now text).mp (ht _ _ hjob)
    case h_2 => cases h
  | _ => trivial

theorem sound_init : Sound {} where
  hash j h hj := by cases hj
  record w job hw := by cases hw

theorem sound_of_reach (h : machine.Reach (fun s l => l.Regular ∧ l.FirstTry s) {} s) :
    s.Sound ∧ ∀ j, (s.view j).Fine j := by
  refine Machine.Reach.invariant (I := fun s => s.Sound ∧ ∀ j, (s.view j).Fine j)
    ⟨sound_init, view_init⟩ ?_ h
  rintro s l t ⟨hs, hf⟩ ⟨hr, hl⟩ ht
  exact ⟨hs.step hf hr hl ht, fine_step hf ht⟩

end Site

/-- As long as every job that completes does so at the first attempt since it was submitted, no
record contradicts itself, and the first one that does is a job that completes later than that. -/
theorem consistent_iff_first_try {s t : Site} {l : Turn}
    (h : Site.machine.Reach (fun s l => l.Regular ∧ l.FirstTry s) {} s) (hl : l.Regular)
    (ht : s.step l = some t) : s.Consistent ∧ (t.Consistent ↔ l.FirstTry s) := by
  obtain ⟨hs, hf⟩ := Site.sound_of_reach h
  refine ⟨fun j g hg => (hs.hash j g hg).consistent, hs.firstTry ht, fun hfirst j g hg => ?_⟩
  exact ((hs.step hf hl hfirst ht).hash j g hg).consistent

/-- A job is cancelled, and another one is completed at the first attempt. -/
theorem first_try_consistent :
    ∃ s t : Site, s.step (.complete "w" 5 "ok") = some t ∧
      s.Consistent ∧ t.Consistent := by
  obtain ⟨s, hs, hp⟩ : ∃ s, Site.machine.Reach (fun s l => l.Regular ∧ l.FirstTry s) {} s ∧
      ((s.step (.complete "w" 5 "ok")).isSome && decide ((s.hand "w").failures = 0)) = true :=
    Machine.exists_reach_of_execIf (b := fun s l => decide (l.Regular ∧ l.FirstTry s))
      (fun _ _ h => of_decide_eq_true h)
      [.enqueue { id := "first", status := .queued }, .enqueue { id := "job", status := .queued },
        .cancel "first" 1, .pop "w", .read "w", .claim "w" 2] (by decide +kernel)
  rw [Bool.and_eq_true, decide_eq_true_eq, Option.isSome_iff_exists] at hp
  obtain ⟨⟨t, ht⟩, hfirst⟩ := hp
  have hregular : Turn.Regular (.complete "w" 5 "ok") := trivial
  obtain ⟨hcs, hct⟩ := consistent_iff_first_try hs hregular ht
  exact ⟨s, t, ht, hcs, hct.mpr hfirst⟩

/-- A job that fails once and then completes is completed with an error and a time of failure. -/
theorem retried_job_inconsistent :
    ∃ s, Site.machine.Reach (fun _ l => l.Regular) {} s ∧
      ∃ h, s.store.jobs "job" = some h ∧ h.fromMap.status = .completed ∧
        h.fromMap.error = "storage unavailable" ∧ h.fromMap.failedAt = some 2 := by
  let bad : JobHash → Bool := fun h => decide (h.fromMap.status = .completed ∧
    h.fromMap.error = "storage unavailable" ∧ h.fromMap.failedAt = some 2)
  obtain ⟨s, hs, hp⟩ : ∃ s, Site.machine.Reach (fun _ l => l.Regular) {} s ∧
      (s.store.jobs "job").any bad = true :=
    Machine.exists_reach_of_execIf (b := fun _ l => decide l.Regular)
      (fun _ _ h => of_decide_eq_true h)
      [.enqueue { id := "job", status := .queued }, .pop "w", .read "w", .claim "w" 1,
        .requeue "w" 2 "storage unavailable", .push "w", .ack "w", .pop "w", .read "w",
        .claim "w" 3, .complete "w" 4 "ok"] (by decide +kernel)
  obtain ⟨h, hh, hq⟩ := (Option.any_eq_true _ _).mp hp
  exact ⟨s, hs, h, hh, of_decide_eq_true hq⟩

end Morf.Queue
