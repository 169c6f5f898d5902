import Morf.Queue.NoLoss

/-! Failed jobs and the dead-letter list: a job is marked as failed by one command and buried by the
next, and whoever finds it failed in between lets go of it. -/

namespace Morf.Queue

open Morf.Lib
open List Function Option Fleet

def Delivery.burying : Delivery → Option JobId
  | .buried _ job => some job.id
  | _ => none

def Request.ordinary : Request → Bool
  | .uploading job | .stored job | .undoing job | .enqueuing job => job.status = .queued
  | .cancelling _ | .done => true
  | .retrying _ | .removed _ | .resubmitting _ => false

/-- The circumstances under which a failed job is found: unless the job is on the dead-letter list
already, its burial does not fail, and the worker does not crash before it.  Jobs come in queued,
and nothing is retried from the list. -/
def burying (v : Pool) : Action → Bool
  | .worker _ (.buried _ job) (.remote (.moveToDLQScript _)) r => r.isOk || job.id ∈ v.store.dlq
  | .crash w =>
    match v.worker w with
    | .buried _ job => job.id ∈ v.store.dlq
    | _ => true
  | .submit _ p => p.ordinary
  | _ => true

structure Findable (v : Pool) : Prop where
  failed : ∀ {j}, v.store.status j = some .failed →
    j ∈ v.store.dlq ∨ ∃ w, (v.worker w).burying = some j
  ordinary : ∀ n, (v.client n).ordinary = true

def Cmd.mild : Cmd → Bool
  | .remote (.hset job) | .remote (.enqueueScript job)
  | .remote (.enqueueWithLimitScript job _ _) => job.status ≠ .failed
  | .remote (.retryDLQRemoveScript _) => false
  | _ => true

structure Store.Milder (σ σ' : Store) : Prop where
  failed : ∀ {j}, σ'.status j = some .failed → σ.status j = some .failed
  dlq : σ.dlq ⊆ σ'.dlq

variable {σ : Store} {c : Cmd} {p : Delivery}

theorem Store.Milder.of_jobs (hjobs : σ'.jobs = σ.jobs) (hdlq : σ.dlq ⊆ σ'.dlq) : σ.Milder σ' :=
  ⟨fun h => by rwa [status, hjobs] at h, hdlq⟩

theorem Store.status_hsetJob (hnew : new.status = some st) :
    (σ.hsetJob j new).status i = if i = j then some st else σ.status i := by
  split
  case isTrue h =>
    subst h
    simp [status, hsetJob_self, JobHash.hset, hnew]
  case isFalse h => rw [status, status, hsetJob_of_ne σ new h]

theorem Store.milder_hsetJob (hnew : new.status = some st) (hst : st ≠ .failed)
    (hjobs : σ'.jobs = (σ.hsetJob j new).jobs) (hdlq : σ.dlq ⊆ σ'.dlq) : σ.Milder σ' where
  failed {i} h := by
    have h : (σ.hsetJob j new).status i = some .failed := by rwa [status, hjobs] at h
    rw [status_hsetJob hnew] at h
    split at h
    · exact absurd (some.inj h) hst
    · exact h
  dlq := hdlq

theorem Store.milder_cancel (j : JobId) (t : Time) : σ.Milder (σ.cancel j t).2 := by
  obtain ⟨-, h⟩ | ⟨g, -, -, -, hjobs, -, -, hdlq, -⟩ := σ.cancel_cases j t
  · rw [h]
    exact .of_jobs rfl (Subset.refl _)
  · exact milder_hsetJob rfl (by decide) hjobs (by rw [hdlq]; exact Subset.refl _)

theorem Store.Exec.mild (he : σ.Exec c r σ') (hc : c.mild = true) : σ.Milder σ' := by
  cases he.effect with
  | ok c =>
    cases c with
    | blmove w =>
      simp only [apply]
      split <;> exact .of_jobs rfl (Subset.refl _)
    | hset job | enqueueScript job =>
      exact milder_hsetJob rfl (of_decide_eq_true hc) rfl (Subset.refl _)
    | enqueueWithLimitScript job limit count =>
      simp only [apply]
      split
      · exact .of_jobs rfl (Subset.refl _)
      · exact milder_hsetJob rfl (of_decide_eq_true hc) rfl (Subset.refl _)
    | hsetPhase j ph =>
      exact ⟨fun h => (σ.status_hsetPhase j _ ph).symm.trans h, Subset.refl _⟩
    | moveToDLQScript j => exact .of_jobs rfl (subset_cons_self _ _)
    | retryDLQRemoveScript j => cases hc
    | cancelJobScript j t => exact milder_cancel j t
    | _ => exact .of_jobs rfl (Subset.refl _)
  | _ => exact .of_jobs rfl (Subset.refl _)

theorem Cmd.mild_of_inert (h : c.inert = true) : c.mild = true := by
  cases c with
  | remote c => cases c <;> first | rfl | cases h
  | _ => rfl

theorem Cmd.mild_of_lookup (h : c.lookup = true) : c.mild = true := by
  cases c with
  | remote c => cases c <;> first | rfl | cases h
  | _ => rfl

theorem Sweep.Step.mild (h : Sweep.Step q c r q') : c.mild = true := by
  cases h with
  | lookup hl => exact Cmd.mild_of_lookup hl
  | _ => rfl

theorem Request.Step.ordinary (h : Request.Step q c r q') (hq : q.ordinary = true) :
    c.mild = true ∧ q'.ordinary = true := by
  cases h with
  | put | undo | cancel | clock | putError => exact ⟨rfl, by first | rfl | exact hq⟩
  | publish | full | publishError | enqueue | enqueueWithLimit =>
    have hs := of_decide_eq_true hq
    exact ⟨by simp [Cmd.mild, hs], by first | rfl | exact hq⟩
  | _ => cases hq

theorem burying_of_resting (h : p.resting = true) : p.burying = none := by
  cases p <;> first | rfl | cases h

namespace Findable

theorem mildly (hv : Findable v) (hm : v.store.Milder σ)
    (hp : ∀ j, (v.worker w).burying = some j → p.burying = some j ∨ j ∈ σ.dlq)
    (hj : σ.status j = some .failed) :
    j ∈ σ.dlq ∨ ∃ w', (Function.update v.worker w p w').burying = some j := by
  rcases hv.failed (hm.failed hj) with h | ⟨w', h⟩
  · exact .inl (hm.dlq h)
  · by_cases hw : w' = w
    · subst hw
      exact (hp j h).symm.imp_right fun h => ⟨w', by rwa [update_self]⟩
    · exact .inr ⟨w', by rwa [update_of_ne hw]⟩

theorem deliver (hv : Findable v) (hg : burying v (.worker w (v.worker w) c r) = true)
    (he : v.store.Exec c r σ) (hd : Delivery.Step cfg w (v.worker w) c r p)
    (hj : σ.status j = some .failed) :
    j ∈ σ.dlq ∨ ∃ w', (Function.update v.worker w p w').burying = some j := by
  generalize hw : v.worker w = q at hd hg
  cases hd with
  | inert hi =>
    exact hv.mildly (he.mild (Cmd.mild_of_inert hi)) (fun j h => .inl (by rwa [hw] at h)) hj
  | bury hc =>
    -- the job that has become failed is the one that the worker is about to bury
    obtain ⟨-, rfl⟩ := he.ok
    rename_i job' _
    rw [Store.apply, Store.status_hsetJob rfl] at hj
    split at hj
    case isTrue h =>
      exact .inr ⟨w, by rw [update_self, h]; rfl⟩
    case isFalse h =>
      refine (hv.failed hj).imp_right (Exists.imp fun w' h => ?_)
      rwa [update_of_ne]
      rintro rfl
      rw [hw] at h
      cases h
  | deadLetter =>
    refine hv.mildly (he.mild rfl) (fun j h => .inr ?_) hj
    rw [hw] at h
    cases h
    obtain ⟨-, rfl⟩ | ⟨⟨m, rfl⟩, rfl⟩ := he.remote
    · exact mem_cons_self
    · simpa [burying, Except.isOk, Except.toBool] using hg
  | commitError hc =>
    obtain rfl := he.error
    exact hv.mildly (.of_jobs rfl (Subset.refl _)) (fun j h => by rw [hw] at h; cases h) hj
  | claim hc | unclaimed hc | complete hc | completeError hc | requeue hc =>
    exact hv.mildly (he.mild (by simp [Cmd.mild, hc.status])) (fun j h => by rw [hw] at h; cases h)
      hj
  | _ => exact hv.mildly (he.mild rfl) (fun j h => by rw [hw] at h; cases h) hj

theorem unmoved (hv : Findable v) (hm : v.store.Milder σ) (hj : σ.status j = some .failed) :
    j ∈ σ.dlq ∨ ∃ w, (v.worker w).burying = some j :=
  (hv.failed (hm.failed hj)).imp_left fun h => hm.dlq h

theorem init : Findable {} := ⟨nofun, fun _ => rfl⟩

theorem step (hn : Named v) (hv : Findable v) (hg : burying v a = true) (h : Pool.Step cfg v a v') :
    Findable v' := by
  -- a worker takes up a position from which it has nothing to bury, and leaves nothing unburied
  have settle : ∀ w q, (∀ j, (v.worker w).burying = some j → j ∈ v.store.dlq) → ∀ {j},
      v.store.status j = some .failed →
        j ∈ v.store.dlq ∨ ∃ w', (Function.update v.worker w q w').burying = some j :=
    fun w q hq _ hj => hv.mildly (.of_jobs rfl (Subset.refl _)) (fun j h => .inr (hq j h)) hj
  cases h with
  | worker hl he hd => exact ⟨fun hj => hv.deliver hg he hd hj, hv.ordinary⟩
  | reaper he hs => exact ⟨fun hj => hv.unmoved (he.mild hs.mild) hj, hv.ordinary⟩
  | client he hs =>
    rename_i n _
    obtain ⟨hmild, hb⟩ := hs.ordinary (hv.ordinary n)
    exact ⟨fun hj => hv.unmoved (he.mild hmild) hj,
      (forall_update_iff v.client fun _ q => q.ordinary = true).mpr
        ⟨hb, fun n _ => hv.ordinary n⟩⟩
  | start hl =>
    refine ⟨fun hj => settle _ _ (fun j h => ?_) hj, hv.ordinary⟩
    rw [hn.unborn _ hl] at h
    cases h
  | turn hl hr | stop hl hr =>
    refine ⟨fun hj => settle _ _ (fun j h => ?_) hj, hv.ordinary⟩
    rw [burying_of_resting hr] at h
    cases h
  | beat hl => exact ⟨hv.failed, hv.ordinary⟩
  | crash hl =>
    rename_i w
    refine ⟨fun hj => settle _ _ (fun j h => ?_) hj, hv.ordinary⟩
    cases hw : v.worker w with
    | buried i job =>
      rw [hw] at h
      cases h
      simpa [burying, hw] using hg
    | _ =>
      rw [hw] at h
      cases h
  | sweep => exact ⟨hv.failed, hv.ordinary⟩
  | crashReaper => exact ⟨hv.failed, hv.ordinary⟩
  | submit hn hp =>
    exact ⟨hv.failed, (forall_update_iff v.client fun _ q => q.ordinary = true).mpr
      ⟨hg, fun n _ => hv.ordinary n⟩⟩
  | crashClient =>
    exact ⟨hv.failed, (forall_update_iff v.client fun _ q => q.ordinary = true).mpr
      ⟨rfl, fun n _ => hv.ordinary n⟩⟩
  | expireLease => exact ⟨hv.failed, hv.ordinary⟩

end Findable

/-- In every run that stays within these circumstances, a failed job is on a list whenever nobody is
in the middle of an operation, and on the dead-letter list when it is on no other. -/
theorem failed_job_found {s : Fleet} {j : JobId}
    (h : (machine cfg).Reach (Fleet.Under cfg fun v a => burying v a = true) {} s)
    (hq : s.Quiet) (hs : s.pool.store.status j = some .failed) :
    (j ∈ s.pool.store.dlq ∨ j ∈ s.pool.store.jobQueue ∨ ∃ w, j ∈ s.pool.store.processing w) ∧
      (j ∉ s.pool.store.jobQueue → (∀ w, j ∉ s.pool.store.processing w) →
        j ∈ s.pool.store.dlq) := by
  have hok : s.Ok cfg := ok_of_reach ok_init h
  have hv : Named s.pool ∧ Findable s.pool :=
    invariant_of_reach (I := fun v => Named v ∧ Findable v) ok_init
      ⟨Named.init, Findable.init⟩ (fun _ _ _ hv hg hs => ⟨hv.1.step hs, hv.2.step hv.1 hg hs⟩) h
  have hdlq : j ∈ s.pool.store.dlq := by
    refine (hv.2.failed hs).resolve_right ?_
    rintro ⟨w, hw⟩
    rw [burying_of_resting (hq.resting hok w)] at hw
    cases hw
  exact ⟨.inl hdlq, fun _ _ => hdlq⟩

def failedRun : List Label :=
  poppedRun ++ claimRun "w" ++
    [.work "w" (.stage (.fail { nonRetryable := true, msg := "corrupt package" } false)),
     .work "w" .ok, .work "w" .ok, .work "w" (.time 1)] ++ List.replicate 7 (.work "w" .ok)

theorem buried_job_found :
    ∃ s, (machine {}).Reach (Fleet.Under {} fun v a => burying v a = true) {} s ∧
      s.Quiet ∧ s.pool.store.status "job" = some .failed ∧
      (("job" ∈ s.pool.store.dlq ∨ "job" ∈ s.pool.store.jobQueue ∨
        ∃ w, "job" ∈ s.pool.store.processing w) ∧
      ("job" ∉ s.pool.store.jobQueue → (∀ w, "job" ∉ s.pool.store.processing w) →
        "job" ∈ s.pool.store.dlq)) := by
  let ls := failedRun ++ replicate 3 (.work "w" .ok)
  obtain ⟨s, hs⟩ : ∃ s, (machine {}).execIf (passes {} burying) {} ls = some s :=
    isSome_iff_exists.mp (by decide)
  have he : (machine {}).exec {} ls = some s := hs
  have hr := Machine.reach_of_execIf (fun _ _ => under_of_passes) ls hs
  cases hs
  have hq := quiet_of_exec ls he (by decide) (by decide) (by decide)
  exact ⟨_, hr, hq, rfl, failed_job_found hr hq rfl⟩

/-- The burial fails, and the worker acknowledges the job all the same. -/
theorem unburied_job_lost :
    ∃ s, (machine {}).Reach Machine.anyStep {} s ∧ s.Quiet ∧
      s.pool.store.status "job" = some .failed ∧ "job" ∉ s.pool.store.dlq ∧
      "job" ∉ s.pool.store.jobQueue ∧ ∀ w, "job" ∉ s.pool.store.processing w := by
  let ls := failedRun ++ [.work "w" (.fail "i/o timeout"), .work "w" .ok, .work "w" .ok]
  obtain ⟨s, hs⟩ : ∃ s, (machine {}).exec {} ls = some s :=
    isSome_iff_exists.mp (by decide)
  have he := hs
  cases hs
  exact ⟨_, Machine.reach_of_exec ls he,
    quiet_of_exec ls he (by decide) (by decide) (by decide), rfl, by decide, by decide,
    processing_of_exec ls he (by decide)⟩

theorem redelivered_job_lost :
    ∃ s, (machine {}).Reach Machine.anyStep {} s ∧ s.Quiet ∧
      s.pool.store.status "job" = some .failed ∧ "job" ∉ s.pool.store.dlq ∧
      "job" ∉ s.pool.store.jobQueue ∧ ∀ w, "job" ∉ s.pool.store.processing w := by
  let ls := failedRun ++ [.crash "w", .sweep 0 1, .reap 0 (.page ["w"] 0), .reap 0 .ok,
    .reap 0 (.time 1000), .reap 0 .ok, .reap 0 .ok, .reap 0 .ok, .reap 0 .ok, .start "x",
    .work "x" (.time 1001), .work "x" .ok, .turn "x", .work "x" .ok, .work "x" .ok, .work "x" .ok]
  obtain ⟨s, hs⟩ : ∃ s, (machine {}).exec {} ls = some s :=
    isSome_iff_exists.mp (by decide)
  have he := hs
  cases hs
  exact ⟨_, Machine.reach_of_exec ls he,
    quiet_of_exec ls he (by decide) (by decide) (by decide), rfl, by decide, by decide,
    processing_of_exec ls he (by decide)⟩

end Morf.Queue
