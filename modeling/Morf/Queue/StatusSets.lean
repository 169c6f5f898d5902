import Morf.Queue.Lifecycle

/-! Every operation of the queue is about one job, and keeps the job in at most one status set. -/

namespace Morf.Queue

open Morf.Lib
open List Function Option Store Function

structure Store.About (j : JobId) (σ σ' : Store) : Prop where
  jobs : ∀ {i}, i ≠ j → σ'.jobs i = σ.jobs i
  sets : ∀ {i}, i ≠ j → ∀ st, σ'.statusSet st i = σ.statusSet st i
  queued : ∀ {i}, i ≠ j → σ'.jobQueue.count i = σ.jobQueue.count i
  dead : ∀ {i}, i ≠ j → σ'.dlq.count i = σ.dlq.count i

namespace Store.About

variable {σ : Store}

theorem refl (σ : Store) : σ.About j σ := ⟨fun _ => rfl, fun _ _ => rfl, fun _ => rfl, fun _ => rfl⟩

theorem trans (h : σ.About j σ') (h' : σ'.About j τ) : σ.About j τ where
  jobs hi := (h'.jobs hi).trans (h.jobs hi)
  sets hi st := (h'.sets hi st).trans (h.sets hi st)
  queued hi := (h'.queued hi).trans (h.queued hi)
  dead hi := (h'.dead hi).trans (h.dead hi)

theorem dlq (σ : Store) (h : ∀ {i}, i ≠ j → l.count i = σ.dlq.count i) :
    σ.About j { σ with dlq := l } := ⟨fun _ => rfl, fun _ _ => rfl, fun _ => rfl, h⟩

theorem publish (σ : Store) (job : ScanJob) : σ.About job.id (σ.publish job) where
  jobs hi := σ.hsetJob_of_ne job.toMap hi
  sets hi st := statusSet_setStatus_of_ne job.status st true hi
  queued hi := by simp [Ne.symm hi]
  dead _ := rfl

theorem updated (σ : Store) (job : ScanJob) : σ.About job.id (σ.updated job) where
  jobs hi := by rw [updated_jobs, σ.hsetJob_of_ne job.toMap hi]
  sets hi st := updated_of_ne job hi st
  queued _ := by rw [updated_jobQueue]
  dead _ := by rw [updated_dlq]

theorem setStatus (σ : Store) (st : JobStatus) (j : JobId) (b : Bool) :
    σ.About j (σ.setStatus st j b) :=
  ⟨fun _ => rfl, fun hi st' => statusSet_setStatus_of_ne st st' b hi, fun _ => rfl, fun _ => rfl⟩

theorem hsetJob (σ : Store) (j : JobId) (new : JobHash) : σ.About j (σ.hsetJob j new) :=
  ⟨fun hi => σ.hsetJob_of_ne new hi, fun _ _ => rfl, fun _ => rfl, fun _ => rfl⟩

theorem jobQueue (σ : Store) (h : ∀ {i}, i ≠ j → l.count i = σ.jobQueue.count i) :
    σ.About j { σ with jobQueue := l } := ⟨fun _ => rfl, fun _ _ => rfl, h, fun _ => rfl⟩

end Store.About

theorem Store.cancel_store (σ : Store) (j : JobId) (now : Time) :
    (σ.cancel j now).2 = σ ∨
      ∃ h, σ.jobs j = some h ∧ (h.status = some .queued ∨ h.status = some .processing) ∧
        (σ.cancel j now).2 =
          { (((σ.hsetJob j (cancelled now)).setStatus .queued j false).setStatus .processing j
            false).setStatus .cancelled j true with
            jobQueue := if h.status = some .queued then σ.jobQueue.erase j else σ.jobQueue } := by
  unfold cancel
  cases hj : σ.jobs j with
  | none => exact .inl rfl
  | some h =>
    dsimp only
    split
    case isTrue => exact .inl rfl
    case isFalse hs =>
      refine .inr ⟨h, rfl, by tauto, ?_⟩
      split <;> rfl

namespace Site

variable {s : Site}

def Moves (s : Site) (j : JobId) (t : Site) : Prop :=
  JobView.Step j (s.view j) (t.view j) ∧ ∀ i ≠ j, t.view i = s.view i

theorem moves_of_view (hstep : JobView.Step j (s.view j) v) (hv : t.view j = v)
    (h : s.store.About j t.store)
    (hand : ∀ {i}, i ≠ j → ∀ w, (t.hand w).about i = (s.hand w).about i) : s.Moves j t :=
  ⟨hv ▸ hstep, fun _ hi => JobView.ext (h.jobs hi) (funext fun st => h.sets hi st) (h.queued hi)
    (h.dead hi) (funext (hand hi))⟩

theorem moves_self (j : JobId) (h : t.view = s.view) : s.Moves j t :=
  ⟨by rw [h]; exact .same, fun i _ => by rw [h]⟩

theorem hand_view (s : Site) (w : WorkerId) (h : Hand) (i : JobId) :
    (fun w' => (update s.hand w h w').about i) =
      update (s.view i).hand w (h.about i) := by
  funext w'
  exact apply_update (fun _ => Hand.about i) s.hand w h w'

theorem about_of_ne {h : Hand} (hj : h.job = some j ∨ h.job = none) (hi : i ≠ j) :
    h.about i = .idle := by
  unfold Hand.about
  rw [if_neg]
  rcases hj with hj | hj <;> simp [hj, Ne.symm hi]

theorem hand_of_ne (hw : (s.hand w).job = some j ∨ (s.hand w).job = none)
    (hh : h.job = some j ∨ h.job = none) (hi : i ≠ j) (w' : WorkerId) :
    (update s.hand w h w').about i = (s.hand w').about i := by
  by_cases hww : w' = w
  · subst hww
    rw [update_self, about_of_ne hh hi, about_of_ne hw hi]
  · rw [update_of_ne hww]

theorem moves_publish (job : ScanJob) (hnew : s.store.jobs job.id = none)
    (hs : job.status = .queued) : s.Moves job.id { s with store := s.store.publish job } := by
  refine moves_of_view (.publish hnew rfl hs) (JobView.ext ?_ ?_ ?_ rfl rfl) (.publish s.store job)
    fun _ _ => rfl
  · show (s.store.hsetJob job.id job.toMap).jobs job.id = _
    rw [hsetJob_self, hnew]
    rfl
  · show (fun st => (setStatus _ job.status job.id true).statusSet st _) = _
    rw [member_setStatus, hs]
    rfl
  · simp [view]

theorem moves_retry (hs : (s.view j).Fine j) (h : s.serve 0 (retryDLQJob j) = some t) :
    s.Moves j t := by
  by_cases hj : j ∈ s.store.dlq
  case neg =>
    obtain ⟨a, ha⟩ := perform_retryDLQJob_of_not_mem (σ := s.store) (t := 0) hj
    rw [serve, ha] at h
    cases h
    exact moves_self j rfl
  case pos =>
    have hd : 0 < (s.view j).dead := count_pos_iff.mpr hj
    obtain ⟨h₀, hh⟩ : ∃ h, s.store.jobs j = some h := hs.hash_of_dead hd
    obtain ⟨a, ha⟩ := perform_retryDLQJob (σ := s.store) (t := 0) hj hh
    rw [serve, ha] at h
    cases h
    have hid : h₀.fromMap.resubmitted.id = j := by
      show h₀.id.getD "" = j
      rw [hs.named hh]
      rfl
    subst hid
    refine moves_of_view (.retry hd hh) (JobView.ext ?_ ?_ ?_ ?_ rfl)
      ((Store.About.dlq s.store fun hi => count_erase_of_ne hi).trans (.publish _ _))
      fun _ _ => rfl
    · show (hsetJob _ _ _).jobs _ = _
      rw [hsetJob_self]
      show some (((s.store.jobs _).getD {}).hset _) = _
      rw [hh]
      rfl
    · show (fun st => (setStatus _ _ _ true).statusSet st _) = _
      rw [member_setStatus]
      rfl
    · simp [view]
    · simp [view]

theorem moves_cancel (now : Time) : s.Moves j { s with store := (s.store.cancel j now).2 } := by
  obtain hσ | ⟨h, hj, hst, hσ⟩ := s.store.cancel_store j now
  · rw [hσ]
    exact moves_self j rfl
  · rw [hσ]
    refine moves_of_view (.cancel (t := now) hj hst) (JobView.ext ?_ ?_ ?_ rfl rfl) ?_
      fun _ _ => rfl
    · show (s.store.hsetJob j (cancelled now)).jobs j = _
      rw [hsetJob_self, hj]
      rfl
    · show (fun st => (setStatus _ _ _ true).statusSet st _) = _
      rw [member_setStatus, member_setStatus, member_setStatus]
      rfl
    · show List.count j (if h.status = some .queued then _ else _) = _
      split <;> simp [view]
    · have hhash := Store.About.hsetJob s.store j (cancelled now)
      refine (((hhash.trans (.setStatus _ .queued j false)).trans
        (.setStatus _ .processing j false)).trans (.setStatus _ .cancelled j true)).trans
        (.jobQueue _ fun hi => ?_)
      split
      · exact count_erase_of_ne hi
      · rfl

theorem moves_hand (hw : (s.hand w).job = some j) (hh : h.job = some j ∨ h.job = none)
    (hstep : JobView.Step j (s.view j)
      { s.view j with hand := update (s.view j).hand w (h.about j) }) :
    s.Moves j { s with hand := update s.hand w h } :=
  moves_of_view hstep (JobView.ext rfl rfl rfl rfl (hand_view s w h j)) (.refl _)
    (hand_of_ne (.inl hw) hh)

theorem about_eq (h : Hand) (j : JobId) : h.about j = h ∨ h.about j = .idle := by
  unfold Hand.about
  split
  · exact .inl rfl
  · exact .inr rfl

theorem copy_id (hs : (s.view j).Fine j) (hw : (s.hand w).job = some j)
    (hc : (s.hand w).copy = some job) : job.id = j := by
  have hw' : (s.view j).hand w = s.hand w := if_pos hw
  have hc' : ((s.view j).hand w).copy = some job := by rw [hw', hc]
  exact (hs.held (JobView.ne_idle_of_copy hc')).2.2.2.2.1 job hc'

theorem act_eq {op : Op α} {k : α → Hand} {a : α} (hop : s.store.perform 0 op = some (a, σ))
    (h : s.act w op k = some t) : t = ⟨σ, update s.hand w (k a)⟩ := by
  rw [act, hop] at h
  exact (some.inj h).symm

theorem moves_update {next : Hand} (hs : (s.view j).Fine j) (hw : s.hand w = h)
    (hact : s.act w (updateJob job) (fun _ => next) = some t) (hj : h.job = some j)
    (hc : h.copy = some old) (hid : job.id = old.id) (hst : job.status ≠ .unset)
    (hnext : next.job = some j ∨ next.job = none) (hcopy : ∀ c, next.copy = some c → c = job)
    (hf : next.failing = true → job.status = .failed) : s.Moves j t := by
  subst hw
  obtain rfl := act_eq (perform_updateJob job) hact
  obtain rfl : job.id = j := hid.trans (copy_id hs hj hc)
  have hc' : ((s.view job.id).hand w).copy = some old := by
    rw [show (s.view job.id).hand w = s.hand w from if_pos hj, hc]
  have hstep : JobView.Step job.id (s.view job.id) { s.view job.id with
      hash := some (((s.view job.id).hash.getD {}).hset job.toMap)
      member := moved (s.view job.id).status job.status (s.view job.id).member
      hand := update (s.view job.id).hand w (next.about job.id) } := by
    refine .update hc' hid hst (fun c hc => ?_) fun hf' => ?_
    · rcases about_eq next job.id with ha | ha
      · exact hcopy c (by rwa [ha] at hc)
      · rw [ha] at hc
        cases hc
    · rcases about_eq next job.id with ha | ha
      · exact hf (by rwa [ha] at hf')
      · rw [ha] at hf'
        cases hf'
  refine moves_of_view hstep (JobView.ext ?_ ?_ ?_ ?_ (hand_view s w next job.id))
    (.updated s.store job) (hand_of_ne (.inl hj) hnext)
  · show (s.store.updated job).jobs job.id = _
    rw [updated_jobs, hsetJob_self]
    rfl
  · exact updated_member job
  · show (s.store.updated job).jobQueue.count job.id = _
    rw [updated_jobQueue]
    rfl
  · show (s.store.updated job).dlq.count job.id = _
    rw [updated_dlq]
    rfl

theorem moves_pop (hq : s.store.jobQueue = j :: q) (hw : s.hand w = .idle) :
    s.Moves j ⟨{ s.store with jobQueue := q, processing := f },
      update s.hand w (.popped j)⟩ := by
  have hpos : 0 < (s.view j).queued := by simp [view, hq]
  have hidle : (s.view j).hand w = .idle := by
    show (s.hand w).about j = .idle
    rw [hw]
    rfl
  have habout : (Hand.popped j).about j = .popped j := if_pos rfl
  refine moves_of_view (.pop hpos hidle) (JobView.ext rfl rfl ?_ rfl ?_)
    ⟨fun _ => rfl, fun _ _ => rfl, fun hi => ?_, fun _ => rfl⟩ (hand_of_ne (.inr ?_) (.inl rfl))
  · simp [view, hq]
  · exact (hand_view s w (.popped j) j).trans (by rw [habout])
  · simp [hq, Ne.symm hi]
  · rw [hw]
    rfl

theorem moves_push (hs : (s.view j).Fine j) (hw : s.hand w = .requeued j job) :
    s.Moves j ⟨(s.store.apply (.rpush job.id)).2, update s.hand w (.finished j)⟩ := by
  have hjob : (s.hand w).job = some j := by
    rw [hw]
    rfl
  obtain rfl := copy_id hs hjob (by rw [hw]; rfl)
  have hne : (s.view job.id).hand w ≠ .idle := by
    rw [show (s.view job.id).hand w = s.hand w from if_pos hjob, hw]
    simp
  refine moves_of_view (.push hne) (JobView.ext rfl rfl ?_ rfl (hand_view s w _ job.id))
    (.jobQueue _ fun hi => ?_) (hand_of_ne (.inl hjob) (.inr rfl))
  · simp [view, apply]
  · simp [Ne.symm hi]

theorem moves_bury (hs : (s.view j).Fine j) (hw : s.hand w = .failed j job) :
    s.Moves j ⟨(s.store.apply (.moveToDLQScript job.id)).2,
      update s.hand w (.finished j)⟩ := by
  have hjob : (s.hand w).job = some j := by
    rw [hw]
    rfl
  obtain rfl := copy_id hs hjob (by rw [hw]; rfl)
  have hfailing : ((s.view job.id).hand w).failing = true := by
    rw [show (s.view job.id).hand w = s.hand w from if_pos hjob, hw]
    rfl
  have hcleared := ((Store.About.setStatus s.store .queued job.id false).trans
    (.setStatus _ .processing _ false)).trans (.setStatus _ .failed _ false)
  refine moves_of_view (.bury hfailing) (JobView.ext rfl ?_ rfl ?_ (hand_view s w _ job.id))
    (hcleared.trans (.dlq _ fun hi => ?_)) (hand_of_ne (.inl hjob) (.inr rfl))
  · show (fun st => (setStatus _ _ _ false).statusSet st _) = _
    rw [member_setStatus, member_setStatus, member_setStatus]
    rfl
  · simp [view, apply]
  · simp [Ne.symm hi]

theorem moves_letGo (hw : (s.hand w).job = some j) :
    s.Moves j { s with hand := update s.hand w (.finished j) } := by
  refine moves_hand hw (.inr rfl) (.letGo ?_)
  rw [show (s.view j).hand w = s.hand w from if_pos hw]
  intro h
  rw [h] at hw
  cases hw

theorem moves_read (hs : (s.view j).Fine j) (hw : s.hand w = .popped j)
    (h : s.act w (getJob j) (fun
      | .ok job => if job.status.isTerminal then .finished j else .read j job
      | .error _ => .finished j) = some t) : s.Moves j t := by
  have hjob : (s.hand w).job = some j := by
    rw [hw]
    rfl
  have hview : (s.view j).hand w = .popped j := by
    rw [show (s.view j).hand w = s.hand w from if_pos hjob, hw]
  obtain ⟨-, -, -, hsome, -⟩ := hs.held (w := w) (by simp [hview])
  obtain ⟨h₀, hh⟩ := ne_none_iff_exists'.mp hsome
  rw [act, perform_getJob hh] at h
  cases h
  dsimp only
  split
  · exact moves_letGo hjob
  · have habout : (Hand.read j h₀.fromMap).about j = .read j h₀.fromMap := if_pos rfl
    exact moves_hand hjob (.inl rfl) (by rw [habout]; exact .read hview hh)

theorem isNew_iff : s.isNew job = true ↔ job.status = .queued ∧ s.store.jobs job.id = none := by
  simp [isNew]

theorem step_moves (hs : ∀ i, (s.view i).Fine i) (h : s.step l = some t) : ∃ j, s.Moves j t := by
  cases l <;> simp only [step] at h
  case enqueue job =>
    split at h
    case isTrue hnew =>
      obtain ⟨hq, hnone⟩ := isNew_iff.mp hnew
      cases h
      exact ⟨job.id, moves_publish job hnone hq⟩
    case isFalse => cases h
  case enqueueWithLimit job limit count =>
    split at h
    case isTrue hnew =>
      obtain ⟨hq, hnone⟩ := isNew_iff.mp hnew
      refine ⟨job.id, ?_⟩
      obtain ⟨a, ha | ha⟩ :=
        perform_enqueueJobAtomicWithLimit (σ := s.store) (t := 0) job limit count
      · rw [serve, ha] at h
        cases h
        exact moves_self job.id rfl
      · rw [serve, ha] at h
        cases h
        exact moves_publish job hnone hq
    case isFalse => cases h
  case retryDLQ j => exact ⟨j, moves_retry (hs j) h⟩
  case cancel j now =>
    obtain ⟨a, ha⟩ := perform_cancelJob (σ := s.store) (t := now) j
    simp only [serve, ha] at h
    cases h
    exact ⟨j, moves_cancel now⟩
  case pop w =>
    split at h
    case h_1 hw =>
      cases hq : s.store.jobQueue with
      | nil =>
        obtain rfl := act_eq (perform_popJobReliable_nil hq) h
        refine ⟨"", moves_self "" ?_⟩
        rw [← hw, update_eq_self]
      | cons j q =>
        obtain rfl := act_eq (perform_popJobReliable_cons hq) h
        exact ⟨j, moves_pop hq hw⟩
    case h_2 => cases h
  case read w =>
    split at h
    case h_1 j hw => exact ⟨j, moves_read (hs j) hw h⟩
    case h_2 => cases h
  case claim w now =>
    split at h
    case h_1 j job hw =>
      exact ⟨j, moves_update (hs j) hw h rfl rfl rfl nofun (.inl rfl)
        (fun c hc => (some.inj hc).symm) nofun⟩
    case h_2 => cases h
  case complete w now resultJSON =>
    split at h
    case h_1 j job hw =>
      exact ⟨j, moves_update (hs j) hw h rfl rfl rfl nofun (.inr rfl)
        (fun c hc => (by cases hc)) nofun⟩
    case h_2 => cases h
  case requeue w now err =>
    split at h
    case h_1 j job hw =>
      exact ⟨j, moves_update (hs j) hw h rfl rfl rfl nofun (.inl rfl)
        (fun c hc => (some.inj hc).symm) nofun⟩
    case h_2 => cases h
  case push w =>
    split at h
    case h_1 j job hw =>
      obtain rfl := act_eq rfl h
      exact ⟨j, moves_push (hs j) hw⟩
    case h_2 => cases h
  case bury w now err =>
    split at h
    case h_1 j job hw =>
      exact ⟨j, moves_update (hs j) hw h rfl rfl rfl nofun (.inl rfl)
        (fun c hc => (some.inj hc).symm) fun _ => rfl⟩
    case h_2 => cases h
  case moveToDLQ w =>
    split at h
    case h_1 j job hw =>
      obtain rfl := act_eq rfl h
      exact ⟨j, moves_bury (hs j) hw⟩
    case h_2 => cases h
  case leave w =>
    split at h
    case h_1 j job hw =>
      cases h
      exact ⟨j, moves_letGo (by rw [hw]; rfl)⟩
    case h_2 => cases h
  case ack w =>
    split at h
    case h_1 j hw =>
      obtain rfl := act_eq rfl h
      refine ⟨j, moves_self j (funext fun i => JobView.ext rfl rfl rfl rfl ?_)⟩
      refine (hand_view s w .idle i).trans (update_eq_self_iff.mpr ?_)
      show _ = (s.hand w).about i
      rw [hw]
      rfl
    case h_2 => cases h

theorem view_init (j : JobId) : (view {} j).Fine j :=
  ⟨nofun, rfl, nofun, .nowhere, rfl, rfl, rfl⟩

theorem fine_step (hs : ∀ j, (s.view j).Fine j) (h : s.step l = some t) (i : JobId) :
    (t.view i).Fine i := by
  obtain ⟨j, hstep, hothers⟩ := step_moves hs h
  by_cases hi : i = j
  · subst hi
    exact (hs i).step hstep
  · rw [hothers i hi]
    exact hs i

theorem fine_of_reach (h : machine.Reach Machine.anyStep {} s) (j : JobId) : (s.view j).Fine j :=
  Machine.Reach.invariant (I := fun s => ∀ j, (s.view j).Fine j) view_init
    (fun _ _ _ hs _ ht => fine_step hs ht) h j

end Site

/-- A job is in at most one status set, that of the status in its hash. -/
theorem status_sets_agree {s : Site} (h : Site.machine.Reach Machine.anyStep {} s) {st : JobStatus}
    {j : JobId} (hst : s.store.statusSet st j = true) :
    s.store.status j = some st ∧ ∀ st', s.store.statusSet st' j = true → st' = st := by
  have hfine := Site.fine_of_reach h j
  have hstatus : s.store.status j = some st := hfine.sets hst
  refine ⟨hstatus, fun st' hst' => ?_⟩
  have hstatus' : s.store.status j = some st' := hfine.sets hst'
  rw [hstatus] at hstatus'
  exact (some.inj hstatus').symm

/-- A job that is cancelled while a worker has it, which completes it nevertheless. -/
theorem cancelled_job_completed :
    ∃ s : Site, s.store.statusSet .completed "job" = true ∧
      s.store.status "job" = some .completed ∧
      ∀ st, s.store.statusSet st "job" = true → st = .completed := by
  obtain ⟨s, hs, hst⟩ : ∃ s, Site.machine.Reach Machine.anyStep {} s ∧
      s.store.statusSet .completed "job" = true :=
    Machine.exists_reach_of_execIf (b := fun _ _ => true) (fun _ _ _ => trivial)
      [.enqueueWithLimit { id := "job", status := .queued } 1 1, .pop "w", .read "w", .claim "w" 1,
        .cancel "job" 2, .complete "w" 3 "ok"] (by decide +kernel)
  exact ⟨s, hst, status_sets_agree hs hst⟩

end Morf.Queue
