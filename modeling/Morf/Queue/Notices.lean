import Morf.Queue.Slots
import Morf.Queue.Steady

/-! The webhooks of a worker.  What a worker has saved last tells which notice it may send, so
every notice goes back to the save of a completed, a buried or a requeued job. -/

namespace Morf.Queue

open Morf.Lib
open List Function Option Action Store Nat

abbrev Notice := Option (JobId × JobStatus)

/-- The notice that a save makes due.  No notice follows the claim of a job. -/
def ScanJob.notice (job : ScanJob) : Notice :=
  if job.status = .processing then none else some (job.id, job.status)

def noticeNext : Protocol Cmd Reply Notice := fun m c _ =>
  match c with
  | .remote (.hset job) => some job.notice
  | .webhook j st => if m = some (j, st) then some none else none
  | _ => some m

def Cmd.mute : Cmd → Bool
  | .remote (.hset _) | .webhook _ _ => false
  | _ => true

theorem noticeNext_mute (h : c.mute = true) (m : Notice) (r : Reply c) :
    noticeNext m c r = some m := by
  unfold noticeNext
  split
  · cases h
  · cases h
  · rfl

theorem mute_heeds {k : Reply c → Op α} (hc : c.mute = true)
    (h : ∀ r, (k r).Obeys noticeNext post m) : (Prog.call c k).Obeys noticeNext post m :=
  fun r => ⟨m, noticeNext_mute hc m r, h r⟩

theorem sremAll_heeds (sts : List JobStatus) :
    (sremAll j sts).Obeys noticeNext (fun m' _ => m' = m) m := by
  induction sts with
  | nil => rfl
  | cons st sts ih => exact mute_heeds rfl fun _ => ih

theorem updateSets_heeds (old : JobStatus) :
    (updateSets job old).Obeys noticeNext (fun m' _ => m' = m) m := by
  have moved : (moveStatusSet job old).Obeys noticeNext (fun m' _ => m' = m) m := by
    unfold moveStatusSet
    split
    · exact mute_heeds rfl fun _ => mute_heeds rfl fun _ => rfl
    · rfl
  rw [updateSets, remote_bind]
  refine mute_heeds rfl fun _ => .bind (moved.mono ?_)
  rintro _ _ rfl
  split
  · exact sremAll_heeds _
  · rfl

theorem updateJob_heeds : (updateJob job).Obeys noticeNext (fun m' _ => m' = job.notice) m := by
  rw [updateJob, remote_bind]
  refine mute_heeds rfl fun old => ?_
  rw [remote_bind]
  refine fun r => ⟨job.notice, rfl, ?_⟩
  cases r with
  | error e => rfl
  | ok u => exact .bind ((updateSets_heeds _).mono fun _ _ h => h)

theorem checkJobLease_heeds : (checkJobLease j w).Obeys noticeNext (fun m' _ => m' = m) m := by
  refine mute_heeds rfl fun r => ?_
  rcases r with e | _ | o <;> rfl

theorem deleteUploadedArtifact_heeds :
    (deleteUploadedArtifact cfg job).Obeys noticeNext (fun m' _ => m' = m) m := by
  unfold deleteUploadedArtifact
  split
  · rfl
  · split
    · exact mute_heeds rfl fun _ => rfl
    · rfl

theorem dispatchWebhook_heeds :
    (do dispatchWebhook job; return b : Op Bool).Obeys noticeNext (fun _ _ => True)
      (some (job.id, job.status)) := by
  unfold dispatchWebhook
  split
  · trivial
  · exact fun _ => ⟨none, if_pos rfl, trivial⟩

theorem retryJob_heeds (h : job.status = .queued) :
    (retryJob job).Obeys noticeNext (fun _ _ => True) m := by
  refine .bind (updateJob_heeds.mono ?_)
  rintro _ r rfl
  rw [show job.notice = some (job.id, job.status) by simp [ScanJob.notice, h]]
  cases r with
  | error e => exact dispatchWebhook_heeds
  | ok u => exact mute_heeds rfl fun _ => dispatchWebhook_heeds

theorem drop_then_heeds :
    (do deleteUploadedArtifact cfg job; dispatchWebhook job; return true : Op Bool).Obeys
      noticeNext (fun _ _ => True) (some (job.id, job.status)) := by
  refine .bind (deleteUploadedArtifact_heeds.mono ?_)
  rintro _ _ rfl
  exact dispatchWebhook_heeds

theorem buryJob_heeds (h : job.status = .failed) :
    (buryJob cfg job).Obeys noticeNext (fun _ _ => True) m := by
  refine .bind (updateJob_heeds.mono ?_)
  rintro _ r rfl
  rw [show job.notice = some (job.id, job.status) by simp [ScanJob.notice, h]]
  cases r with
  | error e => exact dispatchWebhook_heeds
  | ok u =>
    refine mute_heeds rfl fun r => ?_
    cases r <;> exact drop_then_heeds

theorem completeJob_heeds (h : job.status = .completed) :
    (completeJob cfg job).Obeys noticeNext (fun _ _ => True) m := by
  refine .bind (updateJob_heeds.mono ?_)
  rintro _ r rfl
  rw [show job.notice = some (job.id, job.status) by simp [ScanJob.notice, h]]
  cases r with
  | error e => trivial
  | ok u => exact mute_heeds rfl fun _ => drop_then_heeds

theorem handleJobFailure_heeds (err : ScanError) :
    (handleJobFailure cfg w job err).Obeys noticeNext (fun _ _ => True) m := by
  refine .bind (checkJobLease_heeds.mono ?_)
  rintro _ a rfl
  split
  · trivial
  · rw [now_bind]
    refine mute_heeds rfl fun t => ?_
    dsimp only
    split
    · exact retryJob_heeds rfl
    · exact buryJob_heeds rfl

theorem handleJobSuccess_heeds (result : ScanResult) :
    (handleJobSuccess cfg w job result).Obeys noticeNext (fun _ _ => True) m := by
  refine .bind (checkJobLease_heeds.mono ?_)
  rintro _ a rfl
  split
  · trivial
  · split
    · exact handleJobFailure_heeds _
    · exact mute_heeds rfl fun t => completeJob_heeds rfl

theorem scanPhase_heeds (hk : ∀ r, (k r).Obeys noticeNext (fun _ _ => True) m) :
    (scanPhase job phase k).Obeys noticeNext (fun _ _ => True) m := by
  refine mute_heeds rfl fun _ => mute_heeds rfl fun r => ?_
  cases r with
  | next res => exact hk res
  | _ => trivial

theorem scan_heeds : (scan job).Obeys noticeNext (fun _ _ => True) m := by
  unfold scan
  split
  · exact scanPhase_heeds fun _ => scanPhase_heeds fun _ => scanPhase_heeds fun _ => trivial
  · exact scanPhase_heeds fun _ => scanPhase_heeds fun _ => scanPhase_heeds fun _ =>
      scanPhase_heeds fun _ => trivial

theorem drop_heeds :
    (do deleteUploadedArtifact cfg job; return b : Op Bool).Obeys noticeNext (fun _ _ => True) m :=
  .bind (deleteUploadedArtifact_heeds.mono fun _ _ _ => trivial)

theorem finishJob_heeds (outcome : ScanOutcome) :
    (finishJob cfg w j job outcome).Obeys noticeNext (fun _ _ => True) m := by
  cases outcome with
  | done result => exact handleJobSuccess_heeds result
  | panic msg => exact handleJobFailure_heeds _
  | fail err d =>
    refine mute_heeds rfl fun r => ?_
    rcases r with e | _ | g
    · exact handleJobFailure_heeds _
    · exact handleJobFailure_heeds _
    · show Prog.Obeys _ _ (if g.fromMap.status = .cancelled then _ else _) _
      split
      · exact drop_heeds
      · exact handleJobFailure_heeds _

theorem runJob_heeds : (runJob cfg w j job).Obeys noticeNext (fun _ _ => True) m := by
  rw [runJob, now_bind]
  refine mute_heeds rfl fun t => .bind (updateJob_heeds.mono ?_)
  rintro _ r -
  cases r with
  | error e => trivial
  | ok u =>
    rw [setJobLease, remote_bind]
    refine mute_heeds rfl fun _ => .bind (checkJobLease_heeds.mono ?_)
    rintro _ a -
    split
    · trivial
    · exact .bind (scan_heeds.mono fun _ outcome _ => finishJob_heeds outcome)

theorem processBody_heeds : (processBody cfg w j).Obeys noticeNext (fun _ _ => True) m := by
  refine mute_heeds rfl fun r => ?_
  rcases r with e | _ | g
  · trivial
  · trivial
  · show Prog.Obeys _ _ (if g.fromMap.status = .completed ∨ g.fromMap.status = .failed then _
      else if g.fromMap.status = .cancelled then _ else _) _
    split
    · trivial
    · split
      · exact drop_heeds
      · exact runJob_heeds

theorem processJob_heeds : (processJob cfg w j).Obeys noticeNext (fun _ _ => True) m := by
  refine .bind (processBody_heeds.mono ?_)
  rintro _ b -
  cases b with
  | false => trivial
  | true => exact mute_heeds rfl fun _ => trivial

theorem popAndProcess_heeds : (popAndProcess cfg w).Obeys noticeNext (fun _ _ => True) m := by
  refine mute_heeds rfl fun r => ?_
  rcases r with e | _ | i
  · trivial
  · trivial
  · exact processJob_heeds

def due : List Action → WorkerId → Notice
  | [] => fun _ => none
  | .worker w _ c r :: h => Function.update (due h) w ((noticeNext (due h w) c r).getD (due h w))
  | _ :: h => due h

def Timely (v : Pool) : Action → Prop
  | .worker w _ c r => (noticeNext (due v.hist w) c r).isSome
  | _ => True

namespace Fleet

variable {s : Fleet}

def Heeds (s : Fleet) : Prop :=
  ∀ w, (s.worker w).Obeys noticeNext (fun _ _ => True) (due s.pool.hist w)

theorem Heeds.renew (h : s.Heeds) (hk : k.Obeys noticeNext (fun _ _ => True) (due s.pool.hist w)) :
    ∀ x, (Function.update s.worker w k x).Obeys noticeNext (fun _ _ => True)
      (due s.pool.hist x) := by
  have hu := obeys_update (i := w) h hk
  rwa [update_eq_self] at hu

theorem request_heeds (h : s.Heeds) (hn : s.request n p prog = some (a, s')) :
    Timely s.pool a ∧ s'.Heeds := by
  unfold request at hn
  split at hn <;> cases hn
  exact ⟨trivial, h⟩

theorem next_heeds (h : s.Heeds) (hn : s.next cfg l = some (a, s')) :
    Timely s.pool a ∧ s'.Heeds := by
  cases l with
  | work w e =>
    simp only [next] at hn
    split at hn
    case isTrue =>
      obtain ⟨⟨⟨c, r⟩, σ, k⟩, hc, hn⟩ := map_eq_some_iff.mp hn
      obtain ⟨-, m, hm, hk⟩ := command_spec (h w) hc
      cases hn
      refine ⟨by simp [Timely, hm], ?_⟩
      simp only [Heeds, due, hm, getD_some]
      exact obeys_update h hk
    case isFalse => cases hn
  | reap n e | serve n e =>
    obtain ⟨_, -, hn⟩ := map_eq_some_iff.mp hn
    cases hn
    exact ⟨trivial, h⟩
  | start w =>
    simp only [next] at hn
    split at hn <;> cases hn
    exact ⟨trivial, h.renew (mute_heeds rfl fun _ => mute_heeds rfl fun _ => trivial)⟩
  | turn w =>
    simp only [next] at hn
    split at hn <;> cases hn
    exact ⟨trivial, h.renew popAndProcess_heeds⟩
  | stop w =>
    simp only [next] at hn
    split at hn <;> cases hn
    exact ⟨trivial, h.renew (mute_heeds rfl fun _ => trivial)⟩
  | crash w =>
    simp only [next] at hn
    split at hn <;> cases hn
    exact ⟨trivial, h.renew trivial⟩
  | beat w t =>
    simp only [next] at hn
    split at hn <;> cases hn
    exact ⟨trivial, h⟩
  | sweep n pages =>
    simp only [next] at hn
    split at hn <;> cases hn
    exact ⟨trivial, h⟩
  | upload | enqueue | enqueueWithLimit | cancel | retryDLQ => exact request_heeds h hn
  | crashReaper | crashClient | expireLease =>
    cases hn
    exact ⟨trivial, h⟩

theorem timely (h : (machine cfg).Reach (Under cfg good) {} s) :
    (machine cfg).Reach (Under cfg fun v a => good v a ∧ Timely v a) {} s ∧ s.Heeds := by
  induction h with
  | refl => exact ⟨.refl, fun _ => trivial⟩
  | tail _ hl hs ih =>
    obtain ⟨a, ha⟩ := machine_step hs
    refine ⟨.tail ih.1 (fun b t hb => ⟨hl b t hb, (next_heeds ih.2 hb).1⟩) hs,
      (next_heeds ih.2 ha).2⟩

end Fleet

def Store.notices (σ : Store) (j : JobId) : Nat := (σ.webhooks.map Prod.fst).count j

def Action.requeues (j : JobId) : Action → Nat
  | .worker _ (.committed _ _) (.remote (.hset job)) _ =>
    if job.id = j ∧ job.status = .queued then 1 else 0
  | _ => 0

def Notice.about (j : JobId) : Notice → Nat
  | some (i, _) => if i = j then 1 else 0
  | none => 0

def Delivery.pending (j : JobId) : Delivery → Nat
  | .popped i | .read i _ | .claimed i _ | .leased i _ | .scanning i _ | .rechecking i _
  | .succeeding i _ | .failing i _ | .completing i _ | .committed i _ | .requeued i _ =>
    if i = j then 1 else 0
  | _ => 0

def Grounded (hist : List Action) (n : JobId × JobStatus) : Prop :=
  n.2 = .completed ∨ n.2 = .failed ∨ 0 < total (requeues n.1) hist

open Notice

/-- Every notice goes back to a publication or to a retry: the job of a publication is on the
queue, with a worker, or done with at most one notice. -/
structure Answered (v : Pool) : Prop where
  account : ∀ j F, v.store.notices j + v.store.jobQueue.count j +
    ∑ w ∈ F, (about j (due v.hist w) + (v.worker w).pending j) ≤
      total (publishes j) v.hist + total (requeues j) v.hist
  owing : ∀ w n, due v.hist w = some n → Grounded v.hist n
  sent : ∀ n ∈ v.store.webhooks, Grounded v.hist n

variable {cfg : Config} {v v' : Pool} {a : Action} {w : WorkerId} {c : Cmd} {r : Reply c}
  {σ : Store}

theorem Grounded.cons (h : Grounded v.hist n) (a : Action) : Grounded (a :: v.hist) n := by
  rcases h with h | h | h
  · exact .inl h
  · exact .inr (.inl h)
  · refine .inr (.inr ?_)
    rw [total_cons]
    exact Nat.lt_add_left _ h

theorem Store.Exec.webhooks_eq (h : σ.Exec c r σ') (hc : ∀ j st, c ≠ .webhook j st) :
    σ'.webhooks = σ.webhooks := by
  cases h.effect with
  | ok c =>
    cases c with
    | blmove w =>
      simp only [apply]
      split <;> rfl
    | enqueueWithLimitScript =>
      simp only [apply]
      split <;> rfl
    | cancelJobScript =>
      simp only [apply, cancel]
      split
      · rfl
      · split
        · rfl
        · dsimp only
          split <;> rfl
    | _ => rfl
  | webhook j st => exact absurd rfl (hc j st)
  | none => rfl

theorem Store.Exec.webhook {u : Unit} (h : σ.Exec (.webhook i st) u σ') :
    σ' = { σ with webhooks := σ.webhooks ++ [(i, st)] } := by
  obtain ⟨e, h⟩ := h
  cases e <;> cases h
  rfl

theorem Store.Exec.webhooks_mute (h : σ.Exec c r σ') (hc : c.mute = true) :
    σ'.webhooks = σ.webhooks := by
  refine h.webhooks_eq ?_
  rintro i st rfl
  cases hc

theorem Cmd.mute_of_inert (h : c.inert = true) (hc : ∀ j st, c ≠ .webhook j st) :
    c.mute = true := by
  cases c with
  | remote c => cases c <;> first | rfl | cases h
  | webhook j st => exact absurd rfl (hc j st)
  | _ => rfl

theorem noticeNext_webhook {u : Unit} (h : noticeNext m (.webhook i st) u = some m') :
    m = some (i, st) ∧ m' = none := by
  simp only [noticeNext] at h
  split at h <;> cases h
  exact ⟨‹_›, rfl⟩

@[simp] theorem about_none : about j none = 0 := rfl

@[simp] theorem about_some (n : JobId × JobStatus) :
    about j (some n) = if n.1 = j then 1 else 0 := rfl

theorem about_notice_le (job : ScanJob) :
    about j job.notice ≤ if job.id = j then 1 else 0 := by
  unfold ScanJob.notice
  split
  · exact zero_le _
  · exact le_refl _

theorem pending_pickUp (i : JobId) (h : JobHash) :
    (pickUp i h).pending j ≤ (Delivery.popped i).pending j := by
  unfold pickUp
  split <;> first | exact zero_le _ | exact le_refl _

theorem Delivery.Step.answers (hd : Delivery.Step cfg w q c r p) (he : σ.Exec c r σ')
    (hs : c.served r = true) (hid : ∀ {i job}, q.copy = some (i, job) → job.id = i)
    (hm : noticeNext m c r = some m') :
    σ'.notices j + σ'.jobQueue.count j + (about j m' + p.pending j) ≤
      σ.notices j + σ.jobQueue.count j + (worker w q c r).requeues j +
        (about j m + q.pending j) := by
  have mute : c.mute = true → σ'.notices j = σ.notices j ∧ m' = m := by
    intro hc
    rw [noticeNext_mute hc] at hm
    rw [notices, notices, he.webhooks_mute hc]
    exact ⟨rfl, (some.inj hm).symm⟩
  -- nothing is saved, pushed, popped or sent
  have still : c.mute = true → σ'.jobQueue = σ.jobQueue → p.pending j ≤ q.pending j →
      σ'.notices j + σ'.jobQueue.count j + (about j m' + p.pending j) ≤
        σ.notices j + σ.jobQueue.count j + (worker w q c r).requeues j +
          (about j m + q.pending j) := by
    intro hc hq hp
    obtain ⟨hn, rfl⟩ := mute hc
    rw [hn, hq]
    omega
  have saved : ∀ {job'}, c = .remote (.hset job') →
      about j job'.notice + p.pending j ≤
        (worker w q c r).requeues j + q.pending j →
      σ'.notices j + σ'.jobQueue.count j + (about j m' + p.pending j) ≤
        σ.notices j + σ.jobQueue.count j + (worker w q c r).requeues j +
          (about j m + q.pending j) := by
    rintro job' rfl hp
    obtain rfl := some.inj hm
    have hw : σ'.notices j = σ.notices j := by
      rw [notices, notices, he.webhooks_eq nofun]
    rw [hw, (he.keepsLists rfl).1]
    omega
  cases hd with
  | inert hi =>
    by_cases hc : ∃ i st, c = .webhook i st
    · obtain ⟨i, st, rfl⟩ := hc
      obtain ⟨rfl, rfl⟩ := noticeNext_webhook hm
      obtain rfl := he.webhook
      simp only [notices, map_append, map_cons, map_nil, count_append,
        count_singleton, beq_iff_eq, about_none, about_some]
      omega
    · rw [not_exists] at hc
      exact still (Cmd.mute_of_inert hi fun i st hw => hc i ⟨st, hw⟩) (he.inert hi).jobQueue
        (le_refl _)
  | pop =>
    obtain ⟨hn, rfl⟩ := mute rfl
    obtain ⟨ha, rfl⟩ := he.ok
    obtain ⟨l, hl, hσ⟩ := blmove_some ha
    rw [hn, hσ, hl]
    simp only [Delivery.pending, count_cons, beq_iff_eq]
    omega
  | popNone => exact still rfl (by rw [he.blmove_none]) (le_refl _)
  | claim hj =>
    refine saved rfl ?_
    rw [ScanJob.notice, if_pos hj.status, about_none, zero_add]
    exact le_add_left _ _
  | complete hj | bury hj =>
    refine saved rfl (le_add_left_of_le ((about_notice_le _).trans ?_))
    rw [hj.same.1, hid rfl]
    exact le_refl _
  | requeue hj =>
    refine saved rfl (Nat.add_le_add ((about_notice_le _).trans ?_) (Nat.le_refl _))
    simp [requeues, hj.status]
  | push =>
    obtain ⟨hn, rfl⟩ := mute rfl
    obtain ⟨-, rfl⟩ := he.ok
    rw [hn, hid rfl]
    simp only [apply, count_append, count_singleton, beq_iff_eq, Delivery.pending]
    omega
  | ackDropped | ackPushed | ack =>
    refine still rfl ?_ (zero_le _)
    obtain ⟨-, rfl⟩ | ⟨-, rfl⟩ := he.remote <;> rfl
  | popError | unclaimed | completeError | commitError | pushError => cases hs
  | pickUp => exact still rfl (he.keepsLists rfl).1 (pending_pickUp _ _)
  | _ =>
    exact still rfl (he.keepsLists rfl).1 (by first | exact le_refl _ | exact zero_le _)

theorem Delivery.Step.grounds (hd : Delivery.Step cfg w q c r p) (hs : c.served r = true)
    (hm : noticeNext m c r = some (some n)) :
    m = some n ∨ n.2 = .completed ∨ n.2 = .failed ∨ 0 < (worker w q c r).requeues n.1 := by
  by_cases hc : c.mute = true
  · rw [noticeNext_mute hc] at hm
    exact .inl (some.inj hm)
  · right
    have final : ∀ {job' : ScanJob} {st}, job'.status = st → job'.notice = some n → n.2 = st := by
      intro job' st hst hn
      unfold ScanJob.notice at hn
      split at hn <;> cases hn
      exact hst
    cases hd with
    | inert hi =>
      cases c with
      | webhook i st => cases (noticeNext_webhook hm).2
      | remote c => cases c <;> first | exact absurd rfl hc | cases hi
      | _ => exact absurd rfl hc
    | claim hj =>
      have hn := some.inj hm
      rw [ScanJob.notice, if_pos hj.status] at hn
      cases hn
    | complete hj => exact .inl (final hj.status (some.inj hm))
    | bury hj => exact .inr (.inl (final hj.status (some.inj hm)))
    | requeue hj =>
      refine .inr (.inr ?_)
      have hn := some.inj hm
      rw [ScanJob.notice, if_neg (by simp [hj.status])] at hn
      cases hn
      simp [requeues, hj.status]
    | unclaimed | completeError | commitError => cases hs
    | _ => exact absurd rfl hc

theorem Answered.init : Answered {} where
  account j F := by simp [notices, due, about, Delivery.pending, total]
  owing w n h := by cases h
  sent n h := by cases h

theorem Answered.keep (hv : Answered v) (hh : v'.hist = a :: v.hist) (hd : due v'.hist = due v.hist)
    (hw : ∀ w j, (v'.worker w).pending j ≤ (v.worker w).pending j)
    (hs : v'.store.webhooks = v.store.webhooks)
    (hq : ∀ j, v'.store.jobQueue.count j ≤ v.store.jobQueue.count j + a.publishes j) :
    Answered v' where
  account j F := by
    have hsum : ∑ w ∈ F, (about j (due v.hist w) + (v'.worker w).pending j) ≤
        ∑ w ∈ F, (about j (due v.hist w) + (v.worker w).pending j) :=
      Finset.sum_le_sum fun w _ => Nat.add_le_add_left (hw w j) _
    have := hv.account j F
    have := hq j
    rw [hd, hh, total_cons, total_cons, notices, hs, ← notices]
    omega
  owing w n h := by
    rw [hh]
    exact (hv.owing w n (hd ▸ h)).cons a
  sent n h := by
    rw [hh]
    exact (hv.sent n (hs ▸ h)).cons a

theorem Answered.deliver (hv : Answered v) (hn : Named v) (he : v.store.Exec c r σ)
    (hd : Delivery.Step cfg w (v.worker w) c r p) (hs : c.served r = true)
    (ht : Timely v (.worker w (v.worker w) c r)) (hσ : v'.store = σ)
    (hw : v'.worker = Function.update v.worker w p)
    (hh : v'.hist = .worker w (v.worker w) c r :: v.hist) : Answered v' := by
  obtain ⟨m, hm⟩ := isSome_iff_exists.mp ht
  have hdue : due v'.hist = Function.update (due v.hist) w m := by
    rw [hh, due, hm, getD_some]
  refine ⟨fun j F => ?_, fun x n hx => ?_, fun n hx => ?_⟩
  · have hf : ∀ x, about j (due v'.hist x) + (v'.worker x).pending j =
        Function.update (fun x => about j (due v.hist x) + (v.worker x).pending j) w
          (about j m + p.pending j) x := by
      intro x
      rw [hdue, hw]
      by_cases hx : x = w <;> simp [hx]
    have hb := Tally.sum_update_balance (i := w)
      (f := fun x => about j (due v.hist x) + (v.worker x).pending j) F
      (hd.answers (j := j) he hs (fun h => (hn.copy h).1) hm)
    rw [← Finset.sum_congr rfl fun x _ => hf x] at hb
    have hp : total (publishes j) v'.hist = total (publishes j) v.hist := by
      rw [hh, total_cons]
      exact zero_add _
    have hr : total (requeues j) v'.hist =
        (worker w (v.worker w) c r).requeues j + total (requeues j) v.hist := by
      rw [hh, total_cons]
    have := hv.account j (insert w F)
    rw [hσ]
    omega
  · rw [hdue] at hx
    by_cases hxw : x = w
    · subst hxw
      rw [update_self] at hx
      subst hx
      rcases hd.grounds hs hm with h | h | h | h
      · rw [hh]
        exact (hv.owing x n h).cons _
      · exact .inl h
      · exact .inr (.inl h)
      · refine .inr (.inr ?_)
        rw [hh, total_cons]
        exact Nat.lt_add_right _ h
    · rw [update_of_ne hxw] at hx
      rw [hh]
      exact (hv.owing x n hx).cons _
  · rw [hσ] at hx
    rw [hh]
    refine Grounded.cons ?_ _
    by_cases hc : ∃ i st, c = .webhook i st
    · obtain ⟨i, st, rfl⟩ := hc
      obtain rfl := he.webhook
      rcases mem_append.mp hx with hx | hx
      · exact hv.sent n hx
      · rw [mem_singleton.mp hx]
        exact hv.owing w _ (noticeNext_webhook hm).1
    · rw [not_exists] at hc
      rw [he.webhooks_eq fun i st hw => hc i ⟨st, hw⟩] at hx
      exact hv.sent n hx

theorem pending_update (hp : p.pending j = 0) (w : WorkerId) :
    (Function.update v.worker x p w).pending j ≤ (v.worker w).pending j := by
  by_cases hx : w = x
  · subst hx
    rw [update_self, hp]
    exact zero_le _
  · rw [update_of_ne hx]

theorem Answered.step (hv : Answered v) (hs : Steady v) (h : Pool.Step cfg v a v')
    (hg : smooth v a = true) (ht : Timely v a) : Answered v' := by
  cases h with
  | worker hl he hd => exact hv.deliver hs.named he hd hg ht rfl rfl rfl
  | client he hr =>
    refine hv.keep rfl rfl (fun _ _ => le_refl _)
      (he.webhooks_eq fun _ _ => hr.foreign rfl) fun j => ?_
    simpa [slots] using Accounted.serve he hr j ∅
  | reaper he hr =>
    rename_i c r σ n b
    rw [hs.reaping n] at hr
    have hq : σ.jobQueue = v.store.jobQueue ∧ σ.webhooks = v.store.webhooks := by
      cases hr with
      | lookup hl =>
        rw [he.lookup hl]
        exact ⟨rfl, rfl⟩
      | _ => obtain ⟨-, rfl⟩ | ⟨-, rfl⟩ := he.remote <;> exact ⟨rfl, rfl⟩
    refine hv.keep rfl rfl (fun _ _ => le_refl _) hq.2 fun j => ?_
    dsimp only
    rw [hq.1]
    exact le_add_right _ _
  | start | turn | stop =>
    exact hv.keep rfl rfl (fun w j => pending_update rfl w) rfl fun _ => le_refl _
  | crash | crashReaper | crashClient => cases hg
  | _ => exact hv.keep rfl rfl (fun _ _ => le_refl _) rfl fun _ => le_refl _

theorem Fleet.answered
    (h : (Fleet.machine cfg).Reach (Fleet.Under cfg fun v a => smooth v a = true) {} s) :
    Answered s.pool := by
  have hi : Steady s.pool ∧ Answered s.pool :=
    Fleet.invariant_of_reach (I := fun v => Steady v ∧ Answered v) Fleet.ok_init ⟨.init, .init⟩
      (fun _ _ _ hv hg hs => ⟨hv.1.step hs hg.1, hv.2.step hv.1 hs hg.1 hg.2⟩) (Fleet.timely h).1
  exact hi.2

/-- In a run without crashes and errors of Redis, a job that no worker sends back for another
attempt is announced with a final status only, and at most once for each time it is
enqueued. -/
theorem one_final_answer {s : Fleet}
    (h : (Fleet.machine cfg).Reach (Fleet.Under cfg fun v a => smooth v a = true) {} s) {j : JobId}
    (hj : total (requeues j) s.pool.hist = 0) :
    (∀ st, (j, st) ∈ s.pool.store.webhooks → st = .completed ∨ st = .failed) ∧
      s.pool.store.notices j ≤ total (publishes j) s.pool.hist := by
  have hv := Fleet.answered h
  refine ⟨fun st hst => ?_, ?_⟩
  · rcases hv.sent _ hst with hf | hf | hf
    · exact .inl hf
    · exact .inr hf
    · exact absurd hj (ne_of_gt hf)
  · have := hv.account j ∅
    simp only [Finset.sum_empty, hj] at this
    omega

def noticedRun : List Label :=
  [.upload 0 { id := "job", storageKey := "job.apk", webhookURL := "https://hook" } 0,
   .serve 0 .ok, .serve 0 .ok, .start "w", .work "w" (.time 0), .work "w" .ok, .turn "w",
   .work "w" .ok] ++ claimRun "w"

def successRun : List Label :=
  [.work "w" (.stage (.done ⟨.ok "ok"⟩)), .work "w" .ok, .work "w" (.time 2)] ++
    List.replicate 11 (.work "w" .ok)

theorem success_announced_once :
    ∃ s, (Fleet.machine {}).Reach (Fleet.Under {} fun v a => smooth v a = true) {} s ∧
      total (requeues "job") s.pool.hist = 0 ∧ s.pool.store.notices "job" = 1 ∧
      (∀ st, ("job", st) ∈ s.pool.store.webhooks → st = .completed ∨ st = .failed) ∧
        s.pool.store.notices "job" ≤ total (publishes "job") s.pool.hist := by
  obtain ⟨s, hr, -, hp⟩ := Fleet.exists_run {} smooth (fun s =>
    total (requeues "job") s.pool.hist == 0 && s.pool.store.notices "job" == 1)
    (noticedRun ++ successRun) (by decide +kernel)
  simp only [Bool.and_eq_true, beq_iff_eq] at hp
  exact ⟨s, hr, hp.1, hp.2, one_final_answer hr hp.1⟩

/-- A scan fails in a way that is worth a retry, and the next one succeeds: the hook first
hears that the job is queued, and hears of the job twice. -/
theorem retry_announced :
    ∃ s, (Fleet.machine {}).Reach (Fleet.Under {} fun v a => smooth v a = true) {} s ∧
      ("job", .queued) ∈ s.pool.store.webhooks ∧ s.pool.store.notices "job" = 2 ∧
      total (publishes "job") s.pool.hist = 1 := by
  obtain ⟨s, hr, -, hp⟩ := Fleet.exists_run {} smooth (fun s =>
    decide (("job", .queued) ∈ s.pool.store.webhooks) && s.pool.store.notices "job" == 2 &&
      total (publishes "job") s.pool.hist == 1)
    (noticedRun ++
      [.work "w" (.stage (.fail { retryable := true, msg := "storage unavailable" } false)),
       .work "w" .ok, .work "w" .ok, .work "w" (.time 1)] ++ replicate 8 (.work "w" .ok) ++
      [.turn "w", .work "w" .ok] ++ claimRun "w" ++ successRun) (by decide +kernel)
  simp only [Bool.and_eq_true, beq_iff_eq, decide_eq_true_eq] at hp
  exact ⟨s, hr, hp.1.1, hp.1.2, hp.2⟩

end Morf.Queue
