import Morf.Queue.Fleet

/-! The job records: a hash is stored under the id it carries, and a worker's copy of a
job is a copy of an existing hash. -/

namespace Morf.Queue

open Morf.Lib
open Function

def Delivery.copy : Delivery → Option (JobId × ScanJob)
  | .read j job | .claimed j job | .leased j job | .scanning j job | .rechecking j job
  | .succeeding j job | .failing j job | .completing j job | .committed j job
  | .completed j job | .requeued j job | .buried j job | .dropping j job => some (j, job)
  | _ => none

structure Named (v : Pool) : Prop where
  hash : ∀ {j h}, v.store.jobs j = some h → h.id = some j
  copy : ∀ {w j job}, (v.worker w).copy = some (j, job) → job.id = j ∧ (v.store.jobs j).isSome
  unborn : ∀ w, v.life w = .unborn → v.worker w = .idle
  empty : ∀ w, v.life w = .unborn → v.store.processing w = []

structure Store.Grows (σ σ' : Store) : Prop where
  hash : (∀ {j h}, σ.jobs j = some h → h.id = some j) →
    ∀ {j h}, σ'.jobs j = some h → h.id = some j
  some : ∀ {j}, (σ.jobs j).isSome → (σ'.jobs j).isSome

theorem Store.Grows.of_jobs {σ : Store} (h : σ'.jobs = σ.jobs) : σ.Grows σ' :=
  ⟨fun hi => by rw [h]; exact hi, by simp [h]⟩

theorem Store.grows_hsetJob {σ : Store} (h : new.id = some j ∨ new.id = none ∧ (σ.jobs j).isSome) :
    σ.Grows (σ.hsetJob j new) where
  hash hi i g hg := by
    by_cases hij : i = j
    · subst hij
      simp only [hsetJob, update_self, Option.some.injEq] at hg
      subst hg
      rcases h with h | ⟨h, hs⟩
      · simp [JobHash.hset, h]
      · obtain ⟨g, hg⟩ := Option.isSome_iff_exists.mp hs
        simp [JobHash.hset, h, hg, hi hg]
    · simp only [hsetJob, update_of_ne hij] at hg
      exact hi hg
  some {i} hs := by
    by_cases hij : i = j
    · subst hij
      simp [hsetJob]
    · simpa [hsetJob, hij] using hs

theorem Store.Grows.congr {σ : Store} (h : σ.Grows τ) (hj : τ'.jobs = τ.jobs) : σ.Grows τ' :=
  ⟨fun hi => by rw [hj]; exact h.hash hi, fun hs => by rw [hj]; exact h.some hs⟩

theorem Store.grows_publish (σ : Store) (job : ScanJob) : σ.Grows (σ.publish job) :=
  Grows.congr (grows_hsetJob (.inl rfl)) (publish_jobs σ job)

theorem Store.grows_cancel (σ : Store) (j : JobId) (t : Time) : σ.Grows (σ.cancel j t).2 := by
  obtain ⟨-, h⟩ | ⟨g, hg, -, -, hjobs, -⟩ := σ.cancel_cases j t
  · exact .of_jobs (by rw [h])
  · exact Grows.congr (grows_hsetJob (.inr ⟨rfl, by simp [hg]⟩)) hjobs

theorem Store.Exec.grows {σ : Store} {r : Reply c} (h : σ.Exec c r σ')
    (hphase : ∀ j ph, c = .remote (.hsetPhase j ph) → (σ.jobs j).isSome) : σ.Grows σ' := by
  cases h.effect with
  | ok c =>
    cases c <;> simp only [apply]
    case hset job => exact grows_hsetJob (.inl rfl)
    case hsetPhase j ph => exact grows_hsetJob (.inr ⟨rfl, hphase j ph rfl⟩)
    case enqueueScript job => exact grows_publish σ job
    case enqueueWithLimitScript job limit count =>
      split
      · exact .of_jobs rfl
      · exact grows_publish σ job
    case cancelJobScript j t => exact grows_cancel σ j t
    case blmove w => split <;> exact .of_jobs rfl
    all_goals exact .of_jobs rfl
  | _ => exact .of_jobs rfl

theorem Store.Exec.processing_eq {σ : Store} {r : Reply c} (h : σ.Exec c r σ')
    (hb : c ≠ .remote (.blmove w)) (hl : ∀ j, c ≠ .remote (.lrem w j)) :
    σ'.processing w = σ.processing w := by
  cases h.effect with
  | ok c =>
    cases c <;> simp only [apply]
    case blmove w' =>
      have hw : w ≠ w' := by
        rintro rfl
        exact hb rfl
      split <;> simp [hw]
    case lrem w' j =>
      refine update_of_ne ?_ ..
      rintro rfl
      exact hl j rfl
    case cancelJobScript j t =>
      obtain ⟨-, h⟩ | ⟨g, -, -, -, -, -, h, -⟩ := σ.cancel_cases j t
      · rw [h]
      · rw [h]
    case enqueueWithLimitScript => split <;> rfl
    all_goals rfl
  | _ => rfl

theorem Store.Exec.processing_nil {σ : Store} {r : Reply c} (h : σ.Exec c r σ')
    (hc : c ≠ .remote (.blmove w)) (hp : σ.processing w = []) : σ'.processing w = [] := by
  by_cases hl : ∃ j, c = .remote (.lrem w j)
  · obtain ⟨j, rfl⟩ := hl
    obtain ⟨-, rfl⟩ | ⟨-, rfl⟩ := h.remote
    · simp [apply, hp]
    · exact hp
  · rw [h.processing_eq hc (fun j hj => hl ⟨j, hj⟩), hp]

theorem Delivery.Step.popper {r : Reply (.remote (.blmove w'))}
    (h : Delivery.Step cfg w p (.remote (.blmove w')) r p') : w' = w := by
  cases h with
  | inert hi => cases hi
  | _ => rfl

theorem Delivery.Step.acker {r : Reply (.remote (.lrem w' j))}
    (h : Delivery.Step cfg w p (.remote (.lrem w' j)) r p') : w' = w := by
  cases h with
  | inert hi => cases hi
  | _ => rfl

theorem Sweep.Step.jobs {σ : Store} {r : Reply c} (h : Sweep.Step p c r p')
    (he : σ.Exec c r σ') : σ'.jobs = σ.jobs := by
  cases h with
  | lookup hl => rw [he.lookup hl]
  | _ => obtain ⟨-, rfl⟩ | ⟨-, rfl⟩ := he.remote <;> rfl

theorem Store.status_hset (σ : Store) (job : ScanJob) :
    (σ.hsetJob job.id job.toMap).status job.id = some job.status := by
  simp [status, hsetJob_self]

theorem Store.status_hsetPhase (σ : Store) (i j : JobId) (ph : String) :
    (σ.hsetJob i { phase := some ph }).status j = σ.status j := by
  by_cases hj : j = i
  · subst hj
    cases h : σ.jobs j <;> simp [status, hsetJob_self, JobHash.hset, h]
  · simp only [status, hsetJob_of_ne σ _ hj]

theorem Named.resubmitted_id (hv : Named v) (h : v.store.jobs i = some g) :
    g.fromMap.resubmitted.id = i := by
  show g.id.getD "" = i
  rw [hv.hash h]
  rfl

theorem Named.init : Named {} := ⟨nofun, nofun, fun _ _ => rfl, fun _ _ => rfl⟩

theorem Named.grow (hv : Named v) (hs : v.store.Grows v'.store)
    (hw : ∀ w j job, (v'.worker w).copy = some (j, job) →
      (v.worker w).copy = some (j, job) ∨ job.id = j ∧ (v.store.jobs j).isSome)
    (hu : ∀ w, v'.life w = .unborn → v'.worker w = .idle)
    (hp : ∀ w, v'.life w = .unborn → v'.store.processing w = []) : Named v' where
  hash := hs.hash hv.hash
  copy {w j job} h := by
    rcases hw w j job h with h | ⟨hid, hj⟩
    · obtain ⟨hid, hj⟩ := hv.copy h
      exact ⟨hid, hs.some hj⟩
    · exact ⟨hid, hs.some hj⟩
  unborn := hu
  empty := hp

section

variable {life life' : WorkerId → Life} {worker : WorkerId → Delivery}

theorem unborn_before (hw : life' w ≠ .unborn) (ho : ∀ w', w' ≠ w → life' w' = life w')
    (hl : life' w' = .unborn) : w' ≠ w ∧ life w' = .unborn := by
  have hne : w' ≠ w := by
    rintro rfl
    exact hw hl
  exact ⟨hne, ho w' hne ▸ hl⟩

theorem unborn_update (h : ∀ w, life w = .unborn → worker w = .idle) (hw : life' w ≠ .unborn)
    (ho : ∀ w', w' ≠ w → life' w' = life w') :
    ∀ w', life' w' = .unborn → Function.update worker w p w' = .idle := by
  intro w' hl
  obtain ⟨hne, hl⟩ := unborn_before hw ho hl
  rw [update_of_ne hne]
  exact h w' hl

end

theorem copy_update {worker : WorkerId → Delivery} {P : JobId → ScanJob → Prop}
    (hp : ∀ j job, p.copy = some (j, job) → P j job) :
    ∀ w' j job, (Function.update worker w p w').copy = some (j, job) →
      (worker w').copy = some (j, job) ∨ P j job := by
  intro w' j job h
  obtain ⟨-, h⟩ | ⟨-, h⟩ := update_or (P := (Delivery.copy · = some (j, job))) h
  · exact .inr (hp j job h)
  · exact .inl h

theorem pickUp_copy (hc : (pickUp j h).copy = some (i, job)) : i = j ∧ job = h.fromMap := by
  unfold pickUp at hc
  split at hc <;> simp_all [Delivery.copy]

theorem claim.same (h : claim w job job') :
    job'.id = job.id ∧ job'.storageKey = job.storageKey :=
  ⟨(congrArg ScanJob.id h :), (congrArg ScanJob.storageKey h :)⟩

theorem completion.same (h : completion job job') :
    job'.id = job.id ∧ job'.storageKey = job.storageKey :=
  ⟨(congrArg ScanJob.id h :), (congrArg ScanJob.storageKey h :)⟩

theorem failure.same (h : failure job job') :
    job'.id = job.id ∧ job'.storageKey = job.storageKey :=
  ⟨(congrArg ScanJob.id h :), (congrArg ScanJob.storageKey h :)⟩

theorem retry.same (h : retry n job job') :
    job'.id = job.id ∧ job'.storageKey = job.storageKey :=
  ⟨(congrArg ScanJob.id h.1 :), (congrArg ScanJob.storageKey h.1 :)⟩

theorem claim.status (h : claim w job job') : job'.status = .processing :=
  congrArg ScanJob.status h

theorem completion.status (h : completion job job') : job'.status = .completed :=
  congrArg ScanJob.status h

theorem failure.status (h : failure job job') : job'.status = .failed :=
  congrArg ScanJob.status h

theorem retry.status (h : retry n job job') : job'.status = .queued :=
  congrArg ScanJob.status h.1

theorem Delivery.Step.copied {r : Reply c} {σ : Store} (h : Delivery.Step cfg w p c r p')
    (he : σ.Exec c r σ') (hc : p'.copy = some (j, job)) :
    (∃ old, p.copy = some (j, old) ∧ job.id = old.id ∧ job.storageKey = old.storageKey) ∨
      ∃ h, σ.jobs j = some h ∧ job = h.fromMap := by
  cases h with
  | pickUp =>
    obtain ⟨rfl, rfl⟩ := pickUp_copy hc
    exact .inr ⟨_, he.ok.1.symm, rfl⟩
  | inert => exact .inl ⟨job, hc, rfl, rfl⟩
  | claim hj | complete hj | bury hj | requeue hj =>
    cases hc
    exact .inl ⟨_, rfl, hj.same⟩
  | _ =>
    cases hc
    try exact .inl ⟨_, rfl, rfl, rfl⟩

theorem Delivery.Step.phased {r : Reply (.remote (.hsetPhase i ph))}
    (h : Delivery.Step cfg w p (.remote (.hsetPhase i ph)) r p') :
    ∃ j job, p.copy = some (j, job) ∧ job.id = i := by
  cases h with
  | inert hi => cases hi
  | phase => exact ⟨_, _, rfl, rfl⟩

theorem Named.step (hv : Named v) (h : Pool.Step cfg v a v') : Named v' := by
  cases h with
  | worker hl he hd =>
    have hg := he.grows fun i ph hc => by
      subst hc
      obtain ⟨j, job, hj, rfl⟩ := hd.phased
      obtain ⟨hid, hs⟩ := hv.copy hj
      rwa [hid]
    rename_i w _ _ _ p
    have hlife : ∀ w', w' ≠ w →
        (if p.gone then Function.update v.life w .stopped else v.life) w' = v.life w' := by
      intro w' hw
      split <;> simp [hw]
    have hborn : (if p.gone then Function.update v.life w .stopped else v.life) w ≠ .unborn := by
      split <;> simp [hl]
    refine hv.grow hg (copy_update fun j job hc => ?_) (unborn_update hv.unborn hborn hlife)
      fun w' hw' => ?_
    rotate_left
    · obtain ⟨hne, hu⟩ := unborn_before hborn hlife hw'
      refine he.processing_nil ?_ (hv.empty w' hu)
      rintro rfl
      exact hne hd.popper
    rcases hd.copied he hc with ⟨old, ho, hid, -⟩ | ⟨g, hg, rfl⟩
    · obtain ⟨h1, h2⟩ := hv.copy ho
      exact ⟨hid.trans h1, h2⟩
    · exact ⟨by simp [hv.hash hg], by simp [hg]⟩
  | reaper he hr =>
    refine hv.grow (.of_jobs (hr.jobs he)) (fun w j job hc => .inl hc) hv.unborn fun w hw =>
      he.processing_nil ?_ (hv.empty w hw)
    rintro rfl
    generalize v.reaper _ = p at hr
    cases hr with
    | lookup hl => cases hl
  | client he hr =>
    exact hv.grow (he.grows fun i ph hc => (hr.foreign rfl hc).elim) (fun w j job hc => .inl hc)
      hv.unborn fun w hw => he.processing_nil (hr.foreign rfl) (hv.empty w hw)
  | start | crash =>
    refine hv.grow (.of_jobs rfl) (copy_update fun j job hc => ?_)
      (unborn_update hv.unborn (by simp) (fun w' hw => by simp [hw]))
      fun w hw => hv.empty w (of_update (P := (· = Life.unborn)) hw nofun)
    cases hc
  | turn hl | stop hl =>
    refine hv.grow (.of_jobs rfl) (copy_update fun j job hc => ?_)
      (unborn_update hv.unborn (by simp [hl]) (fun w' hw => by simp)) hv.empty
    cases hc
  | beat | expireLease | sweep | crashReaper | submit | crashClient =>
    exact hv.grow (.of_jobs rfl) (fun w j job hc => .inl hc) hv.unborn hv.empty

theorem Fleet.named (h : (Fleet.machine cfg).Reach ok {} s) : Named s.pool :=
  Fleet.invariant_of_reach Fleet.ok_init Named.init (fun _ _ _ hv (_ : True) hs => hv.step hs)
    (h.mono (fun _ _ _ _ _ _ => trivial))

/-! Runs given by their labels.  A run touches only the workers, sweeps and requests that
its labels name, so what it leaves behind is seen on finitely many of them. -/

open List Option

def Label.worker : Label → Option WorkerId
  | .work w _ | .start w | .turn w | .beat w _ | .stop w | .crash w => some w
  | _ => none

def Label.reaper : Label → Option Nat
  | .reap n _ | .sweep n _ | .crashReaper n => some n
  | _ => none

def Label.client : Label → Option Nat
  | .serve n _ | .upload n _ _ | .enqueue n _ | .enqueueWithLimit n _ _ _ | .cancel n _
  | .retryDLQ n _ | .crashClient n => some n
  | _ => none

namespace Fleet

structure Frame (s t : Fleet) (ls : List Label) : Prop where
  worker : ∀ w, w ∉ ls.filterMap Label.worker → t.worker w = s.worker w
  reaper : ∀ n, n ∉ ls.filterMap Label.reaper → t.reaper n = s.reaper n
  client : ∀ n, n ∉ ls.filterMap Label.client → t.client n = s.client n
  life : ∀ w, w ∉ ls.filterMap Label.worker → t.pool.life w = s.pool.life w

theorem request_frame (hc : l.client = some n) (h : s.request n p prog = some (a, t)) :
    Frame s t [l] := by
  unfold request at h
  split at h <;> cases h
  refine ⟨fun _ _ => rfl, fun _ _ => rfl, fun m hm => update_of_ne ?_ ..,
    fun _ _ => rfl⟩
  rintro rfl
  simp [hc] at hm

theorem next_frame (h : s.next cfg l = some (a, t)) : Frame s t [l] := by
  cases l with
  | upload | enqueue | enqueueWithLimit | cancel | retryDLQ => exact request_frame rfl h
  | work w e =>
    simp only [next] at h
    split at h
    · obtain ⟨_, -, h⟩ := map_eq_some_iff.mp h
      cases h
      refine ⟨fun v hv => ?_, fun _ _ => rfl, fun _ _ => rfl, fun v hv => ?_⟩
      all_goals have hv : v ≠ w := by simpa [Label.worker] using hv
      · exact update_of_ne hv ..
      · dsimp only
        split
        · exact update_of_ne hv ..
        · rfl
    · cases h
  | reap | serve =>
    obtain ⟨_, -, h⟩ := map_eq_some_iff.mp h
    cases h
    constructor <;> intro x hx <;>
      first | exact update_of_ne (by simpa [Label.reaper, Label.client] using hx) .. | rfl
  | start | crash | turn | stop | beat | sweep =>
    simp only [next] at h
    split at h <;> cases h
    constructor <;> intro x hx <;>
      first | exact update_of_ne (by simpa [Label.worker, Label.reaper] using hx) .. | rfl
  | crashReaper | crashClient | expireLease =>
    cases h
    constructor <;> intro x hx <;>
      first | exact update_of_ne (by simpa [Label.reaper, Label.client] using hx) .. | rfl

theorem exec_frame (ls : List Label) (h : (machine cfg).exec s ls = some t) : Frame s t ls := by
  induction ls generalizing s with
  | nil =>
    cases h
    exact ⟨fun _ _ => rfl, fun _ _ => rfl, fun _ _ => rfl, fun _ _ => rfl⟩
  | cons l ls ih =>
    obtain ⟨u, hu, h⟩ := bind_eq_some_iff.mp h
    obtain ⟨a, ha⟩ := machine_step hu
    have h1 := next_frame ha
    have h2 := ih h
    constructor <;> intro x hx <;>
      rw [show l :: ls = [l] ++ ls from rfl, filterMap_append, mem_append, not_or] at hx
    · rw [h2.worker x hx.2, h1.worker x hx.1]
    · rw [h2.reaper x hx.2, h1.reaper x hx.1]
    · rw [h2.client x hx.2, h1.client x hx.1]
    · rw [h2.life x hx.2, h1.life x hx.1]

theorem quiet_of_exec (ls : List Label) (h : (machine cfg).exec {} ls = some t)
    (hw : ∀ w ∈ ls.filterMap Label.worker, idle (t.worker w) = true)
    (hr : ∀ n ∈ ls.filterMap Label.reaper, idle (t.reaper n) = true)
    (hc : ∀ n ∈ ls.filterMap Label.client, idle (t.client n) = true) : t.Quiet := by
  have hf := exec_frame ls h
  refine ⟨fun w => ?_, fun n => ?_, fun n => ?_⟩
  · by_cases hm : w ∈ ls.filterMap Label.worker
    · exact hw w hm
    · rw [hf.worker w hm]
      rfl
  · by_cases hm : n ∈ ls.filterMap Label.reaper
    · exact hr n hm
    · rw [hf.reaper n hm]
      rfl
  · by_cases hm : n ∈ ls.filterMap Label.client
    · exact hc n hm
    · rw [hf.client n hm]
      rfl

theorem processing_of_exec (ls : List Label) (h : (machine cfg).exec {} ls = some t)
    (hw : ∀ w ∈ ls.filterMap Label.worker, j ∉ t.pool.store.processing w) :
    ∀ w, j ∉ t.pool.store.processing w := by
  intro w
  by_cases hm : w ∈ ls.filterMap Label.worker
  · exact hw w hm
  · have hn : Named t.pool := named (Machine.reach_of_exec ls h)
    rw [hn.empty w ((exec_frame ls h).life w hm)]
    exact not_mem_nil

theorem worker_of_exec {P : WorkerId → Delivery → Prop} (ls : List Label)
    (h : (machine cfg).exec {} ls = some t) (h0 : ∀ w, P w .idle)
    (hw : ∀ w ∈ ls.filterMap Label.worker, P w (t.pool.worker w)) :
    ∀ w, P w (t.pool.worker w) := by
  intro w
  by_cases hm : w ∈ ls.filterMap Label.worker
  · exact hw w hm
  · have hn : Named t.pool := named (Machine.reach_of_exec ls h)
    rw [hn.unborn w ((exec_frame ls h).life w hm)]
    exact h0 w

def passes (cfg : Config) (good : Pool → Action → Bool) (s : Fleet) (l : Label) : Bool :=
  match s.next cfg l with
  | some (a, _) => good s.pool a
  | none => true

theorem under_of_passes (h : s.passes cfg good l = true) :
    Under cfg (fun v a => good v a = true) s l := by
  intro a s' hn
  simpa [passes, hn] using h

theorem exists_run (cfg : Config) (good : Pool → Action → Bool) (p : Fleet → Bool)
    (ls : List Label) (h : ((machine cfg).execIf (passes cfg good) {} ls).any p = true) :
    ∃ s, (machine cfg).Reach (Under cfg fun v a => good v a = true) {} s ∧
      (machine cfg).exec {} ls = some s ∧ p s = true := by
  obtain ⟨s, hs, hp⟩ := (Option.any_eq_true p _).mp h
  exact ⟨s, Machine.reach_of_execIf (fun _ _ => under_of_passes) ls hs,
    Machine.exec_of_execIf ls hs, hp⟩

def restful (ls : List Label) (s : Fleet) : Bool :=
  (ls.filterMap Label.worker).all (fun w => idle (s.worker w)) &&
    (ls.filterMap Label.reaper).all (fun n => idle (s.reaper n)) &&
    (ls.filterMap Label.client).all (fun n => idle (s.client n))

theorem quiet_of_restful (ls : List Label) (h : (machine cfg).exec {} ls = some t)
    (ht : t.restful ls = true) : t.Quiet := by
  simp only [restful, Bool.and_eq_true, List.all_eq_true] at ht
  exact quiet_of_exec ls h ht.1.1 ht.1.2 ht.2

end Fleet

def poppedRun : List Label :=
  [.upload 0 { id := "job", storageKey := "job.apk" } 0, .serve 0 .ok, .serve 0 .ok,
   .start "w", .work "w" (.time 0), .work "w" .ok, .turn "w", .work "w" .ok]

def claimRun (w : WorkerId) : List Label :=
  [.work w .ok, .work w (.time 0)] ++ List.replicate 8 (.work w .ok)

def retryRun : List Label :=
  poppedRun ++ claimRun "w" ++
    [.work "w" (.stage (.fail { retryable := true, msg := "storage unavailable" } false)),
     .work "w" .ok, .work "w" .ok, .work "w" (.time 1)] ++ List.replicate 6 (.work "w" .ok)

end Morf.Queue
