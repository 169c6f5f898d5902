import Morf.Queue.Custody

/-! Uploaded artifacts: which job an object in storage belongs to, that a job which can
still run has its object, and that a finished one leaves none behind. -/

namespace Morf.Queue

open Morf.Lib
open List Function Option Fleet

def Cmd.failed : (c : Cmd) → Reply c → Bool
  | .remote _, .error _ => true
  | .scanWorkers _, .error _ => true
  | _, _ => false

/-- Nothing crashes or fails and no worker is taken for dead; jobs come from uploads,
with an id and a storage key that no earlier one has had. -/
def calm (v : Pool) : Action → Bool
  | .worker _ _ c r | .client _ _ c r => !c.failed r
  | .submit _ (.uploading job) =>
    job.id ∉ v.issued.map (·.id) && job.storageKey ∉ v.issued.map (·.storageKey)
  | .submit _ (.enqueuing _) => false
  | .submit _ _ | .start _ | .turn _ | .beat _ _ | .stop _ => true
  | _ => false

structure Fresh (v : Pool) : Prop where
  ids : (v.issued.map (·.id)).Nodup
  keys : (v.issued.map (·.storageKey)).Nodup

def Known (v : Pool) (j : JobId) (k : StorageKey) : Prop :=
  ∃ u ∈ v.issued, u.id = j ∧ u.storageKey = k

/-- What an action does to the object at `k`, which is there afterwards if `b`: it appears
with a `PUT`, and disappears only when somebody who answers for its job deletes it. -/
inductive Stores (v : Pool) (k : StorageKey) (b : Bool) : Action → Prop
  | same : b = v.store.objects k → Stores v k b a
  | put : job.storageKey = k → b = true →
      Stores v k b (.client n (.uploading job) (.remote (.put job.storageKey)) (.ok u))
  | free : a.frees i = 1 → Known v i k → b = false → Stores v k b a

variable {σ : Store}

theorem Fresh.step (hv : Fresh v) (h : Pool.Step cfg v a v') (hg : calm v a = true) :
    Fresh v' := by
  cases h with
  | submit hn hp =>
    rename_i n p
    cases p with
    | uploading job =>
      simp only [calm, Bool.and_eq_true, decide_eq_true_eq] at hg
      exact ⟨nodup_cons.mpr ⟨hg.1, hv.ids⟩, nodup_cons.mpr ⟨hg.2, hv.keys⟩⟩
    | enqueuing job => cases hg
    | _ => exact ⟨hv.ids, hv.keys⟩
  | _ => exact ⟨hv.ids, hv.keys⟩

theorem Known.step (hk : Known v j k) (h : Pool.Step cfg v a v') : Known v' j k := by
  obtain ⟨u, hu, h1, h2⟩ := hk
  refine ⟨u, ?_, h1, h2⟩
  cases h with
  | submit => exact mem_append_right _ hu
  | _ => exact hu

theorem Fresh.job_eq (hv : Fresh v) (hu : u ∈ v.issued) (hu' : u' ∈ v.issued)
    (h : u.storageKey = u'.storageKey) : u = u' :=
  inj_on_of_nodup_map hv.keys hu hu' h

def Request.job : Request → Option ScanJob
  | .uploading job | .stored job | .undoing job | .enqueuing job | .resubmitting job => some job
  | _ => none

/-- Every copy of a job, wherever it is, has the storage key the job was issued with. -/
structure Keyed (v : Pool) : Prop where
  hash : ∀ {j h}, v.store.jobs j = some h → ∃ k, h.storageKey = some k ∧ Known v j k
  copy : ∀ {w j job}, (v.worker w).copy = some (j, job) → Known v j job.storageKey
  request : ∀ {n job}, (v.client n).job = some job → Known v job.id job.storageKey

def Cmd.saves : Cmd → Option ScanJob
  | .remote (.hset job) | .remote (.enqueueScript job)
  | .remote (.enqueueWithLimitScript job _ _) => some job
  | _ => none

theorem Store.hsetJob_keyed {P : JobId → StorageKey → Prop}
    (hσ : ∀ {j h}, σ.jobs j = some h → ∃ k, h.storageKey = some k ∧ P j k)
    (hn : (∃ k, new.storageKey = some k ∧ P i k) ∨ new.storageKey = none ∧ (σ.jobs i).isSome) :
    ∀ {j h}, (σ.hsetJob i new).jobs j = some h → ∃ k, h.storageKey = some k ∧ P j k := by
  intro j h hj
  by_cases hi : j = i
  · subst hi
    rw [hsetJob_self] at hj
    cases hj
    rcases hn with ⟨k, hk, hp⟩ | ⟨hk, hs⟩
    · exact ⟨k, by simp [JobHash.hset, hk], hp⟩
    · obtain ⟨g, hg⟩ := isSome_iff_exists.mp hs
      obtain ⟨k, hgk, hp⟩ := hσ hg
      exact ⟨k, by simp [JobHash.hset, hk, hg, hgk], hp⟩
  · rw [hsetJob_of_ne _ _ hi] at hj
    exact hσ hj

theorem Store.Exec.keyed {P : JobId → StorageKey → Prop} (h : σ.Exec c r σ')
    (hσ : ∀ {j h}, σ.jobs j = some h → ∃ k, h.storageKey = some k ∧ P j k)
    (hc : ∀ job, c.saves = some job → P job.id job.storageKey)
    (hphase : ∀ j ph, c = .remote (.hsetPhase j ph) → (σ.jobs j).isSome) :
    ∀ {j h}, σ'.jobs j = some h → ∃ k, h.storageKey = some k ∧ P j k := by
  cases h.effect with
  | ok c =>
    cases c <;> simp only [apply]
    case hset job | enqueueScript job => exact hsetJob_keyed hσ (.inl ⟨_, rfl, hc job rfl⟩)
    case hsetPhase i ph => exact hsetJob_keyed hσ (.inr ⟨rfl, hphase i ph rfl⟩)
    case enqueueWithLimitScript job limit count =>
      split
      · exact hσ
      · exact hsetJob_keyed hσ (.inl ⟨_, rfl, hc job rfl⟩)
    case cancelJobScript i t =>
      obtain ⟨-, h⟩ | ⟨g, hg, -, -, hjobs, -⟩ := σ.cancel_cases i t
      · rw [h]
        exact hσ
      · rw [hjobs]
        exact hsetJob_keyed hσ (.inr ⟨rfl, by simp [hg]⟩)
    case blmove w => split <;> exact hσ
    all_goals exact hσ
  | _ => exact hσ

theorem Delivery.Step.saves (h : Delivery.Step cfg w p c r p') (hc : c.saves = some job') :
    ∃ j job, p.copy = some (j, job) ∧ job'.id = job.id ∧ job'.storageKey = job.storageKey := by
  cases h with
  | claim hj | unclaimed hj | complete hj | completeError hj | requeue hj | bury hj =>
    cases hc
    exact ⟨_, _, rfl, hj.same⟩
  | commitError hj =>
    cases hc
    rcases hj with hj | hj
    all_goals exact ⟨_, _, rfl, hj.same⟩
  | inert hi =>
    cases c with
    | remote c => cases c <;> first | cases hi; done | cases hc
    | _ => cases hc
  | _ => cases hc

theorem Request.Step.saves {job : ScanJob} (h : Request.Step p c r p') (hc : c.saves = some job) :
    p.job = some job := by
  cases h <;> first | exact hc | cases hc

theorem Request.Step.job {job : ScanJob} (h : Request.Step p c r p') (he : σ.Exec c r σ')
    (hj : p'.job = some job) : p.job = some job ∨
      ∃ i g, σ.jobs i = some g ∧ job = g.fromMap.resubmitted := by
  cases h with
  | reread =>
    cases hj
    exact .inr ⟨_, _, he.ok.1.symm, rfl⟩
  | put | full | publishError => exact .inl hj
  | _ => cases hj

theorem Keyed.init : Keyed {} := ⟨nofun, nofun, nofun⟩

theorem Keyed.request_job {p : Request} (hp : p.opening = true) (hj : p.job = some job) :
    job ∈ p.publishes := by
  cases p with
  | uploading i | enqueuing i =>
    cases hj
    exact mem_singleton_self _
  | cancelling i | retrying i => cases hj
  | _ => cases hp

theorem Keyed.step (hk : Keyed v) (hv : Named v) (h : Pool.Step cfg v a v') : Keyed v' := by
  have hash : ∀ {j g}, v.store.jobs j = some g → ∃ k, g.storageKey = some k ∧ Known v' j k := by
    intro j g hg
    obtain ⟨k, hgk, hkn⟩ := hk.hash hg
    exact ⟨k, hgk, hkn.step h⟩
  have copy : ∀ {w j job}, (v.worker w).copy = some (j, job) → Known v' j job.storageKey :=
    fun hc => (hk.copy hc).step h
  have request : ∀ {n job}, (v.client n).job = some job → Known v' job.id job.storageKey :=
    fun hj => (hk.request hj).step h
  cases h with
  | worker hl he hd =>
    rename_i w c r σ p
    refine ⟨he.keyed hash ?_ ?_, ?_, request⟩
    · intro job' hs
      obtain ⟨j, job, hc, hid, hkey⟩ := hd.saves hs
      rw [hid, hkey, (hv.copy hc).1]
      exact copy hc
    · rintro i ph rfl
      obtain ⟨j, job, hc, rfl⟩ := hd.phased
      obtain ⟨hid, hs⟩ := hv.copy hc
      rwa [hid]
    · intro w' j job hc
      obtain ⟨rfl, hp⟩ | ⟨-, hp⟩ := update_or (P := (Delivery.copy · = some (j, job))) hc
      · rcases hd.copied he hp with ⟨old, ho, -, hkey⟩ | ⟨g, hg, rfl⟩
        · rw [hkey]
          exact copy ho
        · obtain ⟨k, hgk, hkn⟩ := hash hg
          simpa [hgk] using hkn
      · exact copy hp
  | client he hs =>
    rename_i c r σ n p
    refine ⟨he.keyed hash (fun job hc => request (hs.saves hc))
      fun _ _ hc => (hs.foreign rfl hc).elim, copy, ?_⟩
    intro m job hj
    obtain ⟨rfl, hp⟩ | ⟨-, hp⟩ := update_or (P := (Request.job · = some job)) hj
    · rcases hs.job he hp with hq | ⟨i, g, hg, rfl⟩
      · exact request hq
      · obtain ⟨k, hgk, hkn⟩ := hash hg
        have hkey : g.fromMap.resubmitted.storageKey = k := by
          show g.storageKey.getD "" = k
          rw [hgk]
          rfl
        rwa [hv.resubmitted_id hg, hkey]
    · exact request hp
  | reaper he hs =>
    refine ⟨?_, copy, request⟩
    dsimp only
    rw [hs.jobs he]
    exact hash
  | start | turn | stop | crash =>
    refine ⟨hash, fun {w j job} hc => ?_, request⟩
    exact copy (of_update (P := (Delivery.copy · = some (j, job))) hc nofun)
  | submit hn hp =>
    refine ⟨hash, copy, fun {m job} hj => ?_⟩
    obtain ⟨rfl, hq⟩ | ⟨-, hq⟩ := update_or (P := (Request.job · = some job)) hj
    · exact ⟨job, mem_append_left _ (Keyed.request_job hp hq), rfl, rfl⟩
    · exact request hq
  | crashClient =>
    refine ⟨hash, copy, fun {m job} hj => ?_⟩
    exact request (of_update (P := (Request.job · = some job)) hj nofun)
  | _ => exact ⟨hash, copy, request⟩

def Cmd.stores : Cmd → Option StorageKey
  | .remote (.put k) | .remote (.delete k) => some k
  | _ => none

theorem Store.Exec.objects (h : σ.Exec c r σ') (hc : c.stores ≠ some k) :
    σ'.objects k = σ.objects k := by
  cases h.effect with
  | ok c =>
    cases c <;> simp only [apply]
    case put key | delete key =>
      exact update_of_ne (fun h => hc (by rw [h]; rfl)) ..
    case enqueueWithLimitScript job limit count => split <;> rfl
    case blmove w => split <;> rfl
    case cancelJobScript i t =>
      obtain ⟨-, h⟩ | ⟨g, -, -, -, -, -, -, -, -, -, h⟩ := σ.cancel_cases i t
      · rw [h]
      · rw [h]
    all_goals rfl
  | _ => rfl

theorem Store.Exec.delete {r : Reply (.remote (.delete k))}
    (h : σ.Exec (.remote (.delete k)) r σ') (k' : StorageKey) :
    σ'.objects k' = σ.objects k' ∨ k' = k ∧ σ'.objects k' = false := by
  obtain ⟨-, rfl⟩ | ⟨-, rfl⟩ := h.remote
  · by_cases hk : k' = k
    · subst hk
      exact .inr ⟨rfl, update_self ..⟩
    · exact .inl (update_of_ne hk ..)
  · exact .inl rfl

theorem Pool.Step.stores (h : Pool.Step cfg v a v') (hk : Keyed v) (k : StorageKey) :
    Stores v k (v'.store.objects k) a := by
  cases h with
  | worker hl he hd =>
    rename_i w c r σ p
    have known : ∀ {i job}, (v.worker w).copy = some (i, job) → Known v i job.storageKey := hk.copy
    dsimp only
    generalize v.worker w = q at hd known
    have other : c.stores = none → Stores v k (σ.objects k) (.worker w q c r) := by
      intro hn
      refine .same (he.objects ?_)
      simp [hn]
    cases hd with
    | inert hi => exact .same (congrFun (he.inert hi).objects k)
    | drop =>
      rename_i job i r hn
      rcases he.delete k with h | ⟨rfl, h⟩
      · exact .same h
      · exact .free (i := i) (by simp [Action.frees]) (known rfl) h
    | _ => exact other rfl
  | client he hs =>
    rename_i c r σ n p
    have known : ∀ {job}, (v.client n).job = some job → Known v job.id job.storageKey :=
      hk.request
    dsimp only
    generalize v.client n = q at hs known
    have other : c.stores = none → Stores v k (σ.objects k) (.client n q c r) := by
      intro hn
      refine .same (he.objects ?_)
      simp [hn]
    cases hs with
    | put =>
      rename_i job u
      by_cases hkey : job.storageKey = k
      · refine .put hkey ?_
        obtain ⟨-, rfl⟩ := he.ok
        subst hkey
        exact update_self ..
      · exact .same (he.objects fun h => hkey (some.inj h))
    | putError => exact .same (by rw [he.error])
    | undo =>
      rename_i job r
      rcases he.delete k with h | ⟨rfl, h⟩
      · exact .same h
      · exact .free (i := job.id) (by simp [Action.frees]) (known rfl) h
    | _ => exact other rfl
  | reaper he hs =>
    dsimp only
    generalize v.reaper _ = q at hs
    cases hs with
    | lookup hl => exact .same (by rw [he.lookup hl])
    | _ => exact .same (he.objects fun h => by cases h)
  | _ => exact .same rfl

def Stocked (cfg : Config) (v : Pool) : Prop :=
  ∀ u ∈ v.issued, (∃ F G, 0 < tokens cfg true v F G u.id) →
    v.store.objects u.storageKey = true ∨ ∃ n, v.client n = .uploading u

theorem Stocked.init : Stocked cfg {} := fun _ h => (not_mem_nil h).elim

theorem Pool.Step.uploading (h : Pool.Step cfg v a v') (hc : calm v a = true)
    (hn : v.client n = .uploading u) :
    v'.store.objects u.storageKey = true ∨ v'.client n = .uploading u := by
  cases h with
  | client he hs =>
    rename_i c r σ m p
    by_cases hm : n = m
    · subst hm
      rw [hn] at hs hc
      cases hs with
      | put =>
        obtain ⟨-, rfl⟩ := he.ok
        exact .inl (update_self ..)
      | putError => cases hc
    · exact .inr ((update_of_ne hm ..).trans hn)
  | submit hd hp =>
    rename_i m p
    have hm : n ≠ m := by
      rintro rfl
      rw [hn] at hd
      cases hd
    exact .inr ((update_of_ne hm ..).trans hn)
  | crashClient => cases hc
  | _ => exact .inr hn

theorem Pool.Step.fresh (h : Pool.Step cfg v a v') (hc : calm v a = true) (hu : u ∈ v'.issued) :
    u ∈ v.issued ∨ ∃ n, v'.client n = .uploading u := by
  cases h with
  | submit hn hp =>
    rename_i n p
    rcases mem_append.mp hu with hu | hu
    · cases p with
      | uploading job =>
        rw [mem_singleton.mp hu]
        exact .inr ⟨n, update_self ..⟩
      | enqueuing job => cases hc
      | _ => cases hu
    · exact .inl hu
  | _ => exact .inl hu

theorem issues_of_mem (hc : calm v a = true) (hu : u ∈ v.issued) : a.issues u.id = 0 := by
  unfold Action.issues
  split
  · rename_i n p
    cases p with
    | uploading job =>
      simp only [calm, Bool.and_eq_true, decide_eq_true_eq] at hc
      refine count_eq_zero.mpr fun hm => hc.1 ?_
      have hid : u.id = job.id := mem_singleton.mp hm
      rw [← hid]
      exact List.mem_map_of_mem hu
    | enqueuing job => cases hc
    | _ => rfl
  · rfl

theorem Stocked.step (hs : Stocked cfg v) (he : Exclusive cfg true v) (hv : Named v)
    (hk : Keyed v) (hf : Fresh v) (h : Pool.Step cfg v a v') (hc : calm v a = true)
    (ho : orderly cfg true a = true) : Stocked cfg v' := by
  rintro u hu ⟨F, G, hpos⟩
  rcases h.fresh hc hu with hold | hnew
  · obtain ⟨F', G', ht⟩ := h.tokens hv ho u.id F G
    have hle := he u.id F' G'
    have hone := nodup_iff_count_le_one.mp hf.ids u.id
    have hiss := issues_of_mem hc hold
    have hfree : a.frees u.id = 0 := by omega
    rcases hs u hold ⟨F', G', by omega⟩ with hobj | ⟨n, hn⟩
    · refine .inl ?_
      cases h.stores hk u.storageKey with
      | same hb => exact hb.trans hobj
      | put _ hb => exact hb
      | free hi hkn =>
        -- the deleted object would be that of a job with the same key
        obtain ⟨u', hu', rfl, hkey⟩ := hkn
        rw [hf.job_eq hu' hold hkey, hfree] at hi
        cases hi
    · exact (h.uploading hc hn).imp_right fun hn' => ⟨n, hn'⟩
  · exact .inr hnew

def Delivery.unscanned (j : JobId) : Delivery → Bool
  | .popped i | .read i _ | .claimed i _ | .leased i _ | .scanning i _ => i = j
  | _ => false

theorem Delivery.holds_of_unscanned {p : Delivery} (h : p.unscanned j = true) :
    p.holds cfg j = 1 := by
  cases p <;> first | exact if_pos (of_decide_eq_true h) | cases h

structure Supplied (cfg : Config) (v : Pool) : Prop where
  named : Named v
  exclusive : Exclusive cfg true v
  fresh : Fresh v
  keyed : Keyed v
  stocked : Stocked cfg v

theorem Supplied.init : Supplied cfg {} :=
  ⟨.init, .init, ⟨.nil, .nil⟩, .init, .init⟩

theorem Supplied.step (hv : Supplied cfg v) (h : Pool.Step cfg v a v')
    (hg : (calm v a && orderly cfg true a) = true) : Supplied cfg v' := by
  obtain ⟨hc, ho⟩ := Bool.and_eq_true_iff.mp hg
  exact ⟨hv.named.step h, hv.exclusive.step hv.named h ho, hv.fresh.step h hc,
    hv.keyed.step hv.named h,
    hv.stocked.step hv.exclusive hv.named hv.keyed hv.fresh h hc ho⟩

theorem Supplied.object (hv : Supplied cfg v) (hu : u ∈ v.issued)
    (hpos : 0 < v.store.load true u.id + ∑ w ∈ F, (v.worker w).holds cfg u.id) :
    v.store.objects u.storageKey = true := by
  rcases hv.stocked u hu ⟨F, ∅, by simpa only [tokens, Finset.sum_empty, Nat.add_zero] using hpos⟩ with
    hobj | ⟨n, hn⟩
  · exact hobj
  · -- the upload would answer for the job a second time
    have hle := hv.exclusive u.id F {n}
    have hone := nodup_iff_count_le_one.mp hv.fresh.ids u.id
    simp only [tokens, Finset.sum_singleton, hn, Request.holds, if_true] at hle
    omega

/-- Unless a job with an artifact is dead-lettered, every job that can still be run has
its artifact in storage. -/
theorem runnable_job_has_artifact {cfg : Config} {s : Fleet} {j : JobId} {h : JobHash}
    {k : StorageKey}
    (hs : (machine cfg).Reach
      (Fleet.Under cfg fun v a => (calm v a && orderly cfg true a) = true) {} s)
    (hj : s.pool.store.jobs j = some h) (hk : h.storageKey = some k)
    (hr : j ∈ s.pool.store.jobQueue ∨
      (∃ w, j ∈ s.pool.store.processing w ∧ (s.pool.worker w).unscanned j = true) ∨
      j ∈ s.pool.store.dlq) : s.pool.store.objects k = true := by
  have hv : Supplied cfg s.pool :=
    invariant_of_reach ok_init Supplied.init (fun _ _ _ hv hg hs => hv.step hs hg) hs
  obtain ⟨k', hk', u, hu, rfl, rfl⟩ := hv.keyed.hash hj
  rw [hk] at hk'
  cases hk'
  rcases hr with hq | ⟨w, -, hw⟩ | hd
  · have := count_pos_iff.mpr hq
    exact hv.object (F := ∅) hu (by simp only [Store.load]; omega)
  · have : (s.pool.worker w).holds cfg u.id = 1 := Delivery.holds_of_unscanned hw
    exact hv.object (F := {w}) hu (by rw [Finset.sum_singleton]; omega)
  · have := count_pos_iff.mpr hd
    exact hv.object (F := ∅) hu (by simp only [Store.load, if_true]; omega)

/-- A job that goes back to the queue for a retry keeps its artifact. -/
theorem retried_job_has_artifact :
    ∃ s h, (machine {}).Reach
        (Fleet.Under {} fun v a => (calm v a && orderly {} true a) = true) {} s ∧
      s.pool.store.jobs "job" = some h ∧ h.storageKey = some "job.apk" ∧
      "job" ∈ s.pool.store.jobQueue ∧ s.pool.store.objects "job.apk" = true := by
  obtain ⟨s, hs⟩ : ∃ s, (machine {}).execIf
      (passes {} fun v a => calm v a && orderly {} true a) {} retryRun = some s :=
    isSome_iff_exists.mp (by decide)
  have hr := Machine.reach_of_execIf (fun _ _ => under_of_passes) retryRun hs
  obtain ⟨h, hj, hk, hq⟩ : ∃ h, s.pool.store.jobs "job" = some h ∧
      h.storageKey = some "job.apk" ∧ "job" ∈ s.pool.store.jobQueue := by
    cases hs
    exact ⟨_, rfl, rfl, by decide⟩
  exact ⟨s, h, hr, hj, hk, hq, runnable_job_has_artifact hr hj hk (.inl hq)⟩

/-- A job whose scan fails for good is dead-lettered and its artifact deleted; retrying it
from there queues a job that has nothing to scan. -/
theorem retried_dead_letter_without_artifact :
    ∃ s h, (machine {}).Reach (Fleet.Under {} fun v a => calm v a = true) {} s ∧ s.Quiet ∧
      s.pool.store.jobs "job" = some h ∧ h.storageKey = some "job.apk" ∧
      "job" ∈ s.pool.store.jobQueue ∧ s.pool.store.objects "job.apk" = false := by
  let ls := poppedRun ++ claimRun "w" ++
    [.work "w" (.stage (.fail { nonRetryable := true, msg := "not an APK" } false)),
     .work "w" .ok, .work "w" .ok, .work "w" (.time 1)] ++ replicate 10 (.work "w" .ok) ++
    [.retryDLQ 0 "job"] ++ replicate 3 (.serve 0 .ok)
  obtain ⟨s, hs⟩ : ∃ s, (machine {}).execIf (passes {} calm) {} ls = some s :=
    isSome_iff_exists.mp (by decide)
  have he : (machine {}).exec {} ls = some s := hs
  have hr := Machine.reach_of_execIf (fun _ _ => under_of_passes) ls hs
  cases hs
  exact ⟨_, _, hr, quiet_of_exec ls he (by decide) (by decide) (by decide), rfl, rfl,
    by decide, rfl⟩

end Morf.Queue
