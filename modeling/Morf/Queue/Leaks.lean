import Morf.Queue.Artifacts
import Morf.Queue.Finality

/-! No artifact is left behind: as long as an artifact is in storage, its job is on the
queue or in the hands of a worker, or has failed. -/

namespace Morf.Queue

open Morf.Lib
open List Function Option Store Delivery Fleet

def sparing (v : Pool) : Action → Bool
  | .client _ _ (.remote (.cancelJobScript j _)) _ =>
    !(decide (v.store.status j = some .queued) && decide (j ∈ v.store.jobQueue))
  | _ => true

def Delivery.leasing (j : JobId) : Delivery → Bool
  | .leased i _ | .scanning i _ | .rechecking i _ | .succeeding i _ | .failing i _
  | .completing i _ => i = j
  | _ => false

def Delivery.finishing : Delivery → Bool
  | .completed _ _ | .dropping _ _ => true
  | _ => false

def Request.unpublished : Request → Option ScanJob
  | .uploading job | .stored job | .undoing job => some job
  | _ => none

/-- A job whose artifact somebody is going to need or to delete. -/
def JobStatus.lives : JobStatus → Bool
  | .queued | .processing | .completed | .cancelled => true
  | .failed | .unset => false

def Request.plain : Request → Bool
  | .enqueuing _ | .removed _ | .resubmitting _ => false
  | _ => true

def Kept (cfg : Config) (v : Pool) (j : JobId) : Prop :=
  j ∈ v.store.jobQueue ∨ ∃ w, 0 < (v.worker w).holds cfg j

structure Tidy (cfg : Config) (v : Pool) : Prop where
  named : Named v
  exclusive : Exclusive cfg false v
  fresh : Fresh v
  keyed : Keyed v
  plain : ∀ n, (v.client n).plain = true
  unpublished : ∀ {n job}, (v.client n).unpublished = some job →
    v.store.jobs job.id = none ∧ job.status = .queued
  leased : ∀ {w j}, (v.worker w).leasing j = true → v.store.lease j = some w
  finished : ∀ {j}, v.store.status j = some .completed → j ∉ v.store.jobQueue ∧
    ∀ w, 0 < (v.worker w).holds cfg j → (v.worker w).finishing = true
  retained : ∀ {u st}, u ∈ v.issued → u.storageKey ≠ "" →
    v.store.objects u.storageKey = true → v.store.status u.id = some st → st.lives = true →
    Kept cfg v u.id

variable {σ : Store} {p : Delivery}

/-! ### One answer for each job -/

theorem Tidy.tokens_le (hv : Tidy cfg v) (j : JobId) (F : Finset WorkerId) (G : Finset Nat) :
    tokens cfg false v F G j ≤ 1 :=
  Nat.le_trans (hv.exclusive j F G) (nodup_iff_count_le_one.mp hv.fresh.ids j)

theorem Tidy.worker_unique (hv : Tidy cfg v) (h : 0 < (v.worker w).holds cfg j)
    (h' : 0 < (v.worker w').holds cfg j) : w' = w := by
  by_contra hne
  have := hv.tokens_le j {w', w} ∅
  simp only [tokens, Finset.sum_pair hne, Finset.sum_empty] at this
  omega

theorem Tidy.not_queued (hv : Tidy cfg v) (h : 0 < (v.worker w).holds cfg j) :
    j ∉ v.store.jobQueue := by
  intro hq
  have hq := count_pos_iff.mpr hq
  have := hv.tokens_le j {w} ∅
  simp only [tokens, Finset.sum_singleton, load] at this
  omega

theorem Tidy.client_unique (hv : Tidy cfg v) (h : 0 < (v.client n).holds j)
    (h' : 0 < (v.client m).holds j) : m = n := by
  by_contra hne
  have := hv.tokens_le j ∅ {m, n}
  simp only [tokens, Finset.sum_pair hne, Finset.sum_empty] at this
  omega

theorem Delivery.holds_of_leasing (h : p.leasing j = true) : 0 < p.holds cfg j := by
  cases p <;> simp_all [leasing, holds]

theorem Request.holds_of_unpublished {p : Request} {job : ScanJob}
    (h : p.unpublished = some job) : 0 < p.holds job.id := by
  cases p <;> cases h <;> simp [holds]

theorem Request.holds_of_job {p : Request} {job : ScanJob} (h : p.job = some job) :
    0 < p.holds job.id := by
  cases p <;> cases h <;> simp [holds]

/-! ### The steps of a worker -/

theorem Store.Exec.status_hset {u : Unit} (h : σ.Exec (.remote (.hset job)) (.ok u) σ') :
    σ'.status job.id = some job.status := by
  obtain ⟨-, rfl⟩ := h.ok
  exact Store.status_hset ..

theorem Delivery.Step.status (hd : Delivery.Step cfg w (v.worker w) c r p) (hv : Named v)
    (he : v.store.Exec c r σ) (hs : σ.status j = some st) :
    v.store.status j = some st ∨
      0 < (v.worker w).holds cfg j ∧ 0 < p.holds cfg j ∧ (st = .completed → p.finishing = true) := by
  have hid : ∀ {i job}, (v.worker w).copy = some (i, job) → job.id = i := fun h => (hv.copy h).1
  have same : σ = v.store → v.store.status j = some st := by
    rintro rfl
    exact hs
  have other : c.records = none → v.store.status j = some st := by
    intro hc
    rw [← hs, status_of_outcome (he.outcome (by simp [hc]))]
  -- a successful write of `job'`, the copy of `i`
  have saved : ∀ {i job'} {u : Unit} {σ'}, v.store.Exec (.remote (.hset job')) (.ok u) σ' →
      σ'.status j = some st → job'.id = i →
      v.store.status j = some st ∨ i = j ∧ job'.status = st := by
    intro i job' u σ' he hs hi
    by_cases hij : i = j
    · subst hi hij
      rw [he.status_hset] at hs
      exact .inr ⟨rfl, some.inj hs⟩
    · left
      rw [← hs, status_of_outcome (he.outcome (by simp [Cmd.records, hi, hij]))]
  generalize v.worker w = q at hd hid
  have hd' := hd
  cases hd with
  | inert hi => exact .inl (by rw [← hs, Store.status, Store.status, (he.inert hi).jobs])
  | claim hj | requeue hj | bury hj | complete hj =>
    rcases saved he hs (hj.same.1.trans (hid rfl)) with h | ⟨rfl, hst⟩
    · exact .inl h
    · refine .inr ⟨by simp [Delivery.holds], by simp [Delivery.holds], fun h => ?_⟩
      obtain ⟨i, hp⟩ := hd'.completes (hst.trans h)
      rw [hp]
      rfl
  | unclaimed | completeError | commitError => exact .inl (same he.error)
  | _ => exact .inl (other rfl)

theorem Fresh.key_eq (hv : Fresh v) (hu : u ∈ v.issued) (h : Known v u.id k) :
    k = u.storageKey := by
  obtain ⟨u', hu', hid, rfl⟩ := h
  rw [inj_on_of_nodup_map hv.ids hu' hu hid]

theorem not_taken {r : Reply (.remote (.getLease i))}
    (h : σ.Exec (.remote (.getLease i)) r σ') (hl : σ.lease i = some w) : taken w r = false := by
  obtain ⟨rfl, -⟩ | ⟨⟨m, rfl⟩, -⟩ := h.remote
  · simp [apply, hl, taken]
  · rfl

theorem Tidy.keeps (hv : Tidy cfg v) (hcfg : cfg.hasStore = true)
    (hc : calm v (.worker w (v.worker w) c r) = true) (he : v.store.Exec c r σ)
    (hd : Delivery.Step cfg w (v.worker w) c r p) (hu : u ∈ v.issued) (hk : u.storageKey ≠ "")
    (hobj : σ.objects u.storageKey = true) (hs : v.store.status u.id = some st)
    (hst : st.lives = true) (hq : 0 < (v.worker w).holds cfg u.id) :
    0 < p.holds cfg u.id ∨ u.id ∈ σ.jobQueue := by
  have hid : ∀ {i job}, (v.worker w).copy = some (i, job) → job.id = i :=
    fun h => (hv.named.copy h).1
  have hkey : ∀ {job}, (v.worker w).copy = some (u.id, job) → job.storageKey = u.storageKey :=
    fun h => hv.fresh.key_eq hu (hv.keyed.copy h)
  have hlease : ∀ {j}, (v.worker w).leasing j = true → v.store.lease j = some w := hv.leased
  have hfin : v.store.status u.id = some .completed → (v.worker w).finishing = true :=
    fun h => (hv.finished h).2 w hq
  generalize v.worker w = q at hd hid hkey hlease hfin hq hc
  have drops : ∀ {job : ScanJob}, job.storageKey = u.storageKey →
      0 < (dropping u.id job).holds cfg u.id := by
    intro job h
    simp [holds, noArtifact, hcfg, h, hk]
  have holder : ∀ {i}, 0 < (if i = u.id then 1 else 0) → i = u.id := by
    intro i h
    by_contra hne
    simp [hne] at h
  cases hd with
  | inert => exact .inl hq
  | pickUp =>
    rename_i i h
    obtain rfl := holder hq
    have hh : v.store.jobs u.id = some h := he.ok.1.symm
    have hs' := Store.fromMap_status hs hh
    obtain ⟨k, hk', hkn⟩ := hv.keyed.hash hh
    obtain rfl := hv.fresh.key_eq hu hkn
    unfold pickUp
    split
    · rename_i heq
      rw [hs'] at heq
      subst heq
      cases hfin hs
    · rename_i heq
      rw [hs'] at heq
      subst heq
      cases hst
    · exact .inl (drops (by simp [hk']))
    all_goals exact .inl hq
  | missing =>
    obtain rfl := holder hq
    have hh : v.store.jobs u.id = none := he.ok.1.symm
    simp [status, hh] at hs
  | taken ht =>
    rw [not_taken he (hlease (by simp [leasing]))] at ht
    cases ht
  | staleSuccess ht | staleFailure ht | staleMarshal ht =>
    obtain rfl := hid rfl
    rw [not_taken he (hlease (by simp [leasing]))] at ht
    cases ht
  | abort | clear | deadLetter =>
    obtain rfl := holder hq
    exact .inl (drops (hkey rfl))
  | push =>
    obtain rfl := holder hq
    obtain ⟨-, rfl⟩ := he.ok
    exact .inr (mem_append_right _ (mem_singleton.mpr (hid rfl).symm))
  | drop =>
    rename_i job i r hn
    have hi : i = u.id := by
      by_contra hne
      simp [holds, hne] at hq
    subst hi
    obtain ⟨-, rfl⟩ | ⟨⟨m, rfl⟩, -⟩ := he.remote
    · rw [← hkey rfl] at hobj
      simp [apply] at hobj
    · cases hc
  | ackDropped hn => simp [holds, hn] at hq
  | unread | unclaimed | completeError | commitError | pushError => cases hc
  | _ => first | exact .inl hq | cases hq

/-! ### The four parts of the invariant -/

theorem Store.Exec.jobs_none (h : σ.Exec c r σ') (hj : σ.jobs j = none)
    (hs : ∀ job, c.saves = some job → job.id ≠ j)
    (hp : ∀ ph, c ≠ .remote (.hsetPhase j ph)) : σ'.jobs j = none := by
  cases h.effect with
  | ok c =>
    cases c <;> simp only [apply]
    case hset job | enqueueScript job => exact (σ.hsetJob_of_ne _ (hs job rfl).symm).trans hj
    case hsetPhase i ph =>
      refine (σ.hsetJob_of_ne _ ?_).trans hj
      rintro rfl
      exact hp ph rfl
    case enqueueWithLimitScript job limit count =>
      split
      · exact hj
      · exact (σ.hsetJob_of_ne _ (hs job rfl).symm).trans hj
    case cancelJobScript i t =>
      obtain ⟨-, h⟩ | ⟨g, hg, -, -, hjobs, -⟩ := σ.cancel_cases i t
      · rw [h, hj]
      · rw [hjobs]
        refine (σ.hsetJob_of_ne _ ?_).trans hj
        rintro rfl
        rw [hj] at hg
        cases hg
    case blmove w => split <;> exact hj
    all_goals exact hj
  | _ => exact hj

theorem Tidy.plain_step (hv : Tidy cfg v) (h : Pool.Step cfg v a v') (hc : calm v a = true)
    (ho : orderly cfg false a = true) : ∀ n, (v'.client n).plain = true := by
  intro m
  have move : ∀ {n p}, p.plain = true → (Function.update v.client n p m).plain = true :=
    fun hp => (forall_update_iff v.client fun _ p => p.plain = true).mpr ⟨hp, fun m _ => hv.plain m⟩ m
  cases h with
  | client he hs =>
    rename_i c r σ n p
    refine move ?_
    have hq := hv.plain n
    generalize v.client n = q at hs hq ho
    cases hs with
    | remove => cases ho
    | reread => cases hq
    | _ => rfl
  | submit hn hp =>
    rename_i n p
    refine move ?_
    cases p with
    | enqueuing job => cases hc
    | removed | resubmitting => cases hp
    | _ => rfl
  | crashClient => exact move rfl
  | _ => exact hv.plain m

theorem Tidy.unpublished_step (hv : Tidy cfg v) (h : Pool.Step cfg v a v')
    (hc : calm v a = true) : ∀ {n job}, (v'.client n).unpublished = some job →
      v'.store.jobs job.id = none ∧ job.status = .queued := by
  intro m job hu
  cases h with
  | worker hl he hd =>
    obtain ⟨hnone, hst⟩ := hv.unpublished hu
    have hne : ∀ {w i copy}, (v.worker w).copy = some (i, copy) → i ≠ job.id := by
      rintro w i copy hcopy rfl
      have := (hv.named.copy hcopy).2
      rw [hnone] at this
      cases this
    refine ⟨he.jobs_none hnone (fun job' hs => ?_) ?_, hst⟩
    · obtain ⟨i, copy, hcopy, hid, -⟩ := hd.saves hs
      rw [hid, (hv.named.copy hcopy).1]
      exact hne hcopy
    · rintro ph rfl
      obtain ⟨i, copy, hcopy, hid⟩ := hd.phased
      exact hne hcopy ((hv.named.copy hcopy).1.symm.trans hid)
  | client he hs =>
    rename_i c r σ n p
    by_cases hm : m = n
    · subst hm
      have hnone : ∀ {job}, (v.client m).unpublished = some job →
          v.store.jobs job.id = none ∧ job.status = .queued := hv.unpublished
      dsimp only at hu ⊢
      rw [update_self] at hu
      generalize v.client m = q at hs hnone
      cases hs with
      | put =>
        cases hu
        exact ⟨he.jobs_none (hnone rfl).1 (fun _ h => (by cases h)) nofun, (hnone rfl).2⟩
      | full =>
        cases hu
        rw [he.refused]
        exact hnone rfl
      | publishError =>
        cases hu
        rw [he.error]
        exact hnone rfl
      | _ => cases hu
    · dsimp only at hu ⊢
      rw [update_of_ne hm] at hu
      obtain ⟨hnone, hst⟩ := hv.unpublished hu
      refine ⟨he.jobs_none hnone (fun job' hc' hid => hm ?_) ?_, hst⟩
      · have h1 := Request.holds_of_job (hs.saves hc')
        rw [hid] at h1
        exact hv.client_unique h1 (Request.holds_of_unpublished hu)
      · exact fun _ => hs.foreign rfl
  | submit hn hp =>
    rename_i n p
    by_cases hm : m = n
    · subst hm
      dsimp only at hu ⊢
      rw [update_self] at hu
      cases p with
      | uploading job' =>
        cases hu
        simp only [calm, Bool.and_eq_true, decide_eq_true_eq] at hc
        refine ⟨eq_none_iff_forall_ne_some.mpr fun h hj => hc.1 ?_, of_decide_eq_true hp⟩
        obtain ⟨k, -, u, hu, hid, -⟩ := hv.keyed.hash hj
        rw [← hid]
        exact List.mem_map_of_mem hu
      | stored | undoing => cases hp
      | _ => cases hu
    · dsimp only at hu
      rw [update_of_ne hm] at hu
      exact hv.unpublished hu
  | reaper | crash | crashClient => cases hc
  | _ => exact hv.unpublished hu

theorem Store.Exec.lease (h : σ.Exec c r σ') (hs : ∀ w, c ≠ .remote (.setLease j w))
    (hd : c ≠ .remote (.delLease j)) : σ'.lease j = σ.lease j := by
  cases h.effect with
  | ok c =>
    cases c <;> simp only [apply]
    case setLease i w =>
      refine update_of_ne ?_ ..
      rintro rfl
      exact hs w rfl
    case delLease i =>
      refine update_of_ne ?_ ..
      rintro rfl
      exact hd rfl
    case cancelJobScript i t =>
      obtain ⟨-, h⟩ | ⟨g, -, -, -, -, -, -, -, h, -⟩ := σ.cancel_cases i t
      · rw [h]
      · rw [h]
    case enqueueWithLimitScript | blmove => split <;> rfl
    all_goals rfl
  | _ => rfl

theorem Delivery.Step.lease_eq (hd : Delivery.Step cfg w (v.worker w) c r p) (hv : Named v)
    (he : v.store.Exec c r σ) (hj : (v.worker w).holds cfg j = 0) :
    σ.lease j = v.store.lease j := by
  have hid : ∀ {i job}, (v.worker w).copy = some (i, job) → job.id = i := fun h => (hv.copy h).1
  generalize v.worker w = q at hd hid hj
  refine he.lease ?_ ?_
  · rintro w' rfl
    cases hd with
    | inert hi => cases hi
    | lease => simp [Delivery.holds] at hj
  · rintro rfl
    cases hd with
    | inert hi => cases hi
    | clear => simp [Delivery.holds, hid rfl] at hj

theorem Tidy.leased_step (hv : Tidy cfg v) (h : Pool.Step cfg v a v') (hc : calm v a = true) :
    ∀ {w j}, (v'.worker w).leasing j = true → v'.store.lease j = some w := by
  intro w j hw
  cases h with
  | worker hl he hd =>
    rename_i x c r σ p
    dsimp only
    replace hw := update_or (P := (leasing j ·)) hw
    obtain ⟨rfl, hw⟩ | ⟨hx, hw⟩ := hw
    · have hlease : (v.worker w).leasing j = true → v.store.lease j = some w := hv.leased
      generalize v.worker w = q at hd hlease hc
      cases hd with
      | inert hi =>
        rw [(he.inert hi).lease]
        exact hlease hw
      | lease =>
        rename_i i job r
        obtain rfl := of_decide_eq_true hw
        obtain ⟨-, rfl⟩ | ⟨⟨m, rfl⟩, -⟩ := he.remote
        · exact update_self ..
        · cases hc
      | pickUp =>
        unfold pickUp at hw
        split at hw <;> cases hw
      | _ =>
        first
        | cases hw
        | exact (he.lease (fun _ => by simp) (by simp)).trans (hlease hw)
    · have hholds : (v.worker x).holds cfg j = 0 := by
        by_contra hne
        exact hx (hv.worker_unique (Nat.pos_of_ne_zero hne) (holds_of_leasing hw))
      rw [hd.lease_eq hv.named he hholds]
      exact hv.leased hw
  | client he hs => rw [he.lease (fun _ => hs.foreign rfl) (hs.foreign rfl), hv.leased hw]
  | start | turn | stop => exact hv.leased (of_update (P := (leasing j ·)) hw nofun)
  | reaper | crash | crashClient | expireLease => cases hc
  | _ => exact hv.leased hw

theorem Delivery.Step.finishing (hd : Delivery.Step cfg w q c r p) (hq : q.finishing = true)
    (hp : 0 < p.holds cfg j) : p.finishing = true := by
  cases hd with
  | inert => exact hq
  | clear => rfl
  | drop => cases hp
  | ackDropped => cases hp
  | _ => cases hq

theorem Store.load_eq_zero : σ.load false j = 0 ↔ j ∉ σ.jobQueue := by
  simp [load, count_eq_zero]

theorem Request.Step.queue {q : Request} (hs : Request.Step q c r q') (hq : q.plain = true)
    (he : σ.Exec c r σ') (hj : j ∈ σ'.jobQueue) :
    j ∈ σ.jobQueue ∨ ∃ job, q = .stored job ∧ job.id = j := by
  have still : c.keepsQueues = true → j ∈ σ.jobQueue := by
    intro hk
    have hload : σ'.load false j = σ.load false j := he.load hk
    by_contra hn
    rw [load_eq_zero.mpr hn] at hload
    exact load_eq_zero.mp hload hj
  cases hs with
  | publish =>
    rename_i job l n
    rw [he.published] at hj
    rcases mem_append.mp hj with hj | hj
    · exact .inl hj
    · exact .inr ⟨job, rfl, (mem_singleton.mp hj).symm⟩
  | full =>
    rw [he.refused] at hj
    exact .inl hj
  | publishError =>
    rw [he.error] at hj
    exact .inl hj
  | enqueue | enqueueWithLimit | resubmit => cases hq
  | cancel =>
    obtain ⟨-, rfl⟩ | ⟨-, rfl⟩ := he.remote
    · obtain ⟨-, h⟩ | ⟨g, -, -, -, -, h, -⟩ := σ.cancel_cases _ _
      · exact .inl (by rwa [apply, h] at hj)
      · rw [apply, h] at hj
        split at hj
        · exact .inl (mem_of_mem_erase hj)
        · exact .inl hj
    · exact .inl hj
  | remove | absent | removeError =>
    obtain ⟨-, rfl⟩ | ⟨-, rfl⟩ := he.remote <;> exact .inl hj
  | _ => exact .inl (still rfl)

theorem Request.Step.status {q : Request} (hs : Request.Step q c r q') (hq : q.plain = true)
    (hu : ∀ {job}, q.unpublished = some job → job.status = .queued) (he : σ.Exec c r σ')
    (h : σ'.status j = some st) :
    σ.status j = some st ∨ st = .queued ∧ j ∈ σ'.jobQueue ∨
      st = .cancelled ∧ ∃ st', σ.status j = some st' ∧ st'.isActive = true := by
  have other : c.records ≠ some j → σ.status j = some st := by
    intro hc
    rw [← h, status_of_outcome (he.outcome hc)]
  cases hs with
  | publish =>
    rename_i job l n
    by_cases hj : job.id = j
    · subst hj
      rw [he.published] at h ⊢
      refine .inr (.inl ⟨?_, mem_append_right _ (mem_singleton_self _)⟩)
      have hjob : job.status = .queued := hu rfl
      simp only [Store.status, Store.publish_jobs, Store.hsetJob_self] at h
      cases h
      exact hjob
    · exact .inl (other (by simp [Cmd.records, hj]))
  | full =>
    rw [he.refused] at h
    exact .inl h
  | publishError =>
    rw [he.error] at h
    exact .inl h
  | enqueue | enqueueWithLimit | resubmit => cases hq
  | cancel =>
    rename_i i t r
    by_cases hj : i = j
    · subst hj
      obtain ⟨-, rfl⟩ | ⟨-, rfl⟩ := he.remote
      · obtain ⟨-, hσ⟩ | ⟨g, hg, hst, -, hjobs, -⟩ := σ.cancel_cases i t
        · rw [apply, hσ] at h
          exact .inl h
        · simp only [Store.status, Store.apply, hjobs, Store.hsetJob_self] at h
          cases h
          refine .inr (.inr ⟨rfl, ?_⟩)
          simp only [Store.status, hg]
          rcases hst with hst | hst
          · exact ⟨.queued, hst, rfl⟩
          · exact ⟨.processing, hst, rfl⟩
      · exact .inl h
    · exact .inl (other (by simp [Cmd.records, hj]))
  | _ => exact .inl (other (by simp [Cmd.records]))

theorem Delivery.Step.keepsQueues (hd : Delivery.Step cfg w q c r p)
    (hq : q.finishing = true) : c.keepsQueues = true := by
  cases hd with
  | inert hi => exact Cmd.keepsQueues_of_inert hi
  | clear | drop | ackDropped => rfl
  | _ => cases hq

theorem Tidy.finished_step (hv : Tidy cfg v) (h : Pool.Step cfg v a v')
    (hc : calm v a = true) (ho : orderly cfg false a = true) :
    ∀ {j}, v'.store.status j = some .completed → j ∉ v'.store.jobQueue ∧
      ∀ w, 0 < (v'.worker w).holds cfg j → (v'.worker w).finishing = true := by
  intro j hs
  have rest : ∀ {x p}, p.holds cfg j = 0 → v.store.status j = some .completed →
      ∀ w, 0 < (Function.update v.worker x p w).holds cfg j →
        (Function.update v.worker x p w).finishing = true := by
    intro x p hp hs w hw
    by_cases hx : w = x
    · subst hx
      rw [update_self, hp] at hw
      cases hw
    · rw [update_of_ne hx] at hw ⊢
      exact (hv.finished hs).2 w hw
  cases h with
  | worker hl he hd =>
    rename_i x c r σ p
    have hle := hd.holds hv.named he ho j
    dsimp only at hs ⊢
    rcases hd.status hv.named he hs with hs₀ | ⟨hq, hp, hfin⟩
    · obtain ⟨hnot, hw⟩ := hv.finished hs₀
      have hload := load_eq_zero.mpr hnot
      by_cases hq : 0 < (v.worker x).holds cfg j
      · -- the worker is done with the job and does not touch the queue
        have hfin := hw x hq
        refine ⟨?_, fun w hw' => ?_⟩
        · rw [← load_eq_zero, he.load (hd.keepsQueues hfin), hload]
        · by_cases hx : w = x
          · subst hx
            rw [update_self] at hw' ⊢
            exact hd.finishing hfin hw'
          · rw [update_of_ne hx] at hw' ⊢
            exact hw w hw'
      · exact ⟨load_eq_zero.mp (by omega), rest (by omega) hs₀⟩
    · -- the worker has just completed the job, which is nowhere else
      have hload := load_eq_zero.mpr (hv.not_queued hq)
      have hone := hv.tokens_le j {x} ∅
      simp only [tokens, Finset.sum_singleton, Finset.sum_empty] at hone
      refine ⟨load_eq_zero.mp (by omega), fun w hw => ?_⟩
      by_cases hx : w = x
      · subst hx
        rw [update_self]
        exact hfin rfl
      · rw [update_of_ne hx] at hw
        exact (hx (hv.worker_unique hq hw)).elim
  | client he hr =>
    rename_i c r σ n q
    have hq := hv.plain n
    have hs₀ : v.store.status j = some .completed := by
      rcases hr.status hq (fun h => (hv.unpublished h).2) he hs with h | ⟨h, -⟩ | ⟨h, -⟩
      · exact h
      · cases h
      · cases h
    refine ⟨fun hm => ?_, (hv.finished hs₀).2⟩
    rcases hr.queue hq he hm with hm | ⟨job, hjob, rfl⟩
    · exact (hv.finished hs₀).1 hm
    · have hnone := (hv.unpublished (n := n) (by rw [hjob]; rfl)).1
      simp [status, hnone] at hs₀
  | start | turn | stop => exact ⟨(hv.finished hs).1, rest rfl hs⟩
  | reaper | crash | crashClient | expireLease => cases hc
  | _ => exact hv.finished hs

theorem Store.Exec.mem_queue (h : σ.Exec c r σ') (hb : ∀ w, c ≠ .remote (.blmove w))
    (hx : ∀ i t, c ≠ .remote (.cancelJobScript i t)) (hj : j ∈ σ.jobQueue) : j ∈ σ'.jobQueue := by
  cases h.effect with
  | ok c =>
    cases c <;> simp only [apply]
    case blmove w => exact (hb w rfl).elim
    case cancelJobScript i t => exact (hx i t rfl).elim
    case rpush i | enqueueScript job => exact mem_append_left _ hj
    case enqueueWithLimitScript job limit count =>
      split
      · exact hj
      · exact mem_append_left _ hj
    all_goals exact hj
  | _ => exact hj

theorem Delivery.Step.mem_queue (hd : Delivery.Step cfg w q c r p) (he : σ.Exec c r σ')
    (hj : j ∈ σ.jobQueue) : 0 < p.holds cfg j ∨ j ∈ σ'.jobQueue := by
  cases hd with
  | pop =>
    rename_i i
    obtain ⟨ha, rfl⟩ := he.ok
    obtain ⟨l, hl, hσ⟩ := blmove_some ha
    rw [hσ]
    rw [hl] at hj
    rcases mem_cons.mp hj with rfl | hj
    · exact .inl (by simp [Delivery.holds])
    · exact .inr hj
  | popNone =>
    rw [he.blmove_none]
    exact .inr hj
  | popError =>
    rw [he.error]
    exact .inr hj
  | inert hi =>
    rw [(he.inert hi).jobQueue]
    exact .inr hj
  | _ => exact .inr (he.mem_queue (fun _ => by simp) (fun _ _ => by simp) hj)

theorem Request.Step.mem_queue {q : Request} (hs : Request.Step q c r q') (he : v.store.Exec c r σ)
    (hg : sparing v (.client n q c r) = true) (hj : j ∈ v.store.jobQueue) : j ∈ σ.jobQueue := by
  cases hs with
  | cancel =>
    rename_i i t r
    obtain ⟨-, rfl⟩ | ⟨-, rfl⟩ := he.remote
    · obtain ⟨-, h⟩ | ⟨g, hgi, -, -, -, h, -⟩ := v.store.cancel_cases i t
      · rwa [apply, h]
      · rw [apply, h]
        split
        · rename_i hst
          -- a queued job that is on the queue is not cancelled here
          have hne : j ≠ i := by
            rintro rfl
            simp [sparing, Store.status, hgi, hst, hj] at hg
          exact (mem_erase_of_ne hne).mpr hj
        · exact hj
    · exact hj
  | _ => exact he.mem_queue (fun _ => by simp) (fun _ _ => by simp) hj

theorem Pool.Step.client_inv {q : Request} (h : Pool.Step cfg v (.client n q c r) v') :
    v.client n = q ∧ ∃ q', Request.Step q c r q' ∧ v'.client n = q' := by
  cases h with
  | client he hs => exact ⟨rfl, _, hs, update_self ..⟩

theorem Delivery.holds_of_resting (h : p.resting = true) : p.holds cfg j = 0 := by
  cases p <;> first | rfl | cases h

theorem Kept.update (h : Kept cfg v j) (hw : (v.worker w).holds cfg j = 0) (p : Delivery) :
    j ∈ v.store.jobQueue ∨ ∃ x, 0 < (Function.update v.worker w p x).holds cfg j := by
  refine h.imp_right ?_
  rintro ⟨x, hx⟩
  have hne : x ≠ w := by
    rintro rfl
    omega
  exact ⟨x, by rwa [update_of_ne hne]⟩

theorem Tidy.retained_step (hv : Tidy cfg v) (hcfg : cfg.hasStore = true)
    (h : Pool.Step cfg v a v') (hc : calm v a = true) (hg : sparing v a = true) :
    ∀ {u st}, u ∈ v'.issued → u.storageKey ≠ "" → v'.store.objects u.storageKey = true →
      v'.store.status u.id = some st → st.lives = true → Kept cfg v' u.id := by
  intro u st hu hk hobj hs hst
  have hunp : ∀ {n job}, (v'.client n).unpublished = some job → job.id ≠ u.id := by
    intro n job hn hid
    have := (hv.unpublished_step h hc hn).1
    rw [hid] at this
    simp [status, this] at hs
  have hold : u ∈ v.issued := by
    rcases h.fresh hc hu with hold | ⟨n, hn⟩
    · exact hold
    · exact (hunp (n := n) (by rw [hn]; rfl) rfl).elim
  have hobj₀ : v.store.objects u.storageKey = true := by
    cases h.stores hv.keyed u.storageKey with
    | same hb => rw [← hb, hobj]
    | free _ _ hb =>
      rw [hb] at hobj
      cases hobj
    | put hkey =>
      -- the object of a job that is not published yet
      obtain ⟨hn, p, hp, hn'⟩ := h.client_inv
      obtain ⟨u', hu', hid, hkey'⟩ := hv.keyed.request (by rw [hn]; rfl)
      obtain rfl := hv.fresh.job_eq hu' hold (hkey'.trans hkey)
      cases hp
      exact (hunp (by rw [hn']; rfl) hid.symm).elim
  cases h with
  | worker hl he hd =>
    rename_i x c r σ p
    have here : 0 < p.holds cfg u.id →
        ∃ w, 0 < (Function.update v.worker x p w).holds cfg u.id := fun hp => ⟨x, by simpa using hp⟩
    rcases hd.status hv.named he hs with hs₀ | ⟨-, hp, -⟩
    · rcases hv.retained hold hk hobj₀ hs₀ hst with hq | ⟨w, hw⟩
      · exact (hd.mem_queue he hq).symm.imp_right here
      · by_cases hx : w = x
        · subst hx
          exact (hv.keeps hcfg hc he hd hold hk hobj hs₀ hst hw).symm.imp_right here
        · exact .inr ⟨w, by simpa [hx] using hw⟩
    · exact .inr (here hp)
  | client he hr =>
    rename_i c r σ n q
    have kept : ∀ {st}, v.store.status u.id = some st → st.lives = true →
        u.id ∈ σ.jobQueue ∨ ∃ w, 0 < (v.worker w).holds cfg u.id :=
      fun hs hst => (hv.retained hold hk hobj₀ hs hst).imp_left (hr.mem_queue he hg)
    rcases hr.status (hv.plain n) (fun h => (hv.unpublished h).2) he hs with
      hs₀ | ⟨-, hq⟩ | ⟨-, st', hs₀, hst'⟩
    · exact kept hs₀ hst
    · exact .inl hq
    · refine kept hs₀ ?_
      cases st' <;> first | rfl | cases hst'
  | start hl hne =>
    rename_i x
    have hidle : (v.worker x).holds cfg u.id = 0 := by
      rw [hv.named.unborn x hl]
      rfl
    exact (hv.retained hold hk hobj₀ hs hst).update hidle _
  | turn hl hr | stop hl hr =>
    exact (hv.retained hold hk hobj₀ hs hst).update (holds_of_resting hr) _
  | reaper | crash | crashClient | expireLease => cases hc
  | _ => exact hv.retained hold hk hobj₀ hs hst

/-- The circumstances in which no artifact is left behind. -/
def tidy (cfg : Config) (v : Pool) (a : Action) : Bool :=
  calm v a && orderly cfg false a && sparing v a

theorem Tidy.init : Tidy cfg {} where
  named := .init
  exclusive := .init
  fresh := ⟨.nil, .nil⟩
  keyed := .init
  plain _ := rfl
  unpublished := nofun
  leased := nofun
  finished := nofun
  retained hu := (not_mem_nil hu).elim

theorem Tidy.step (hv : Tidy cfg v) (hcfg : cfg.hasStore = true) (h : Pool.Step cfg v a v')
    (hg : tidy cfg v a = true) : Tidy cfg v' := by
  simp only [tidy, Bool.and_eq_true] at hg
  obtain ⟨⟨hc, ho⟩, hsp⟩ := hg
  exact ⟨hv.named.step h, hv.exclusive.step hv.named h ho, hv.fresh.step h hc,
    hv.keyed.step hv.named h, hv.plain_step h hc ho, hv.unpublished_step h hc,
    hv.leased_step h hc, hv.finished_step h hc ho, hv.retained_step hcfg h hc hsp⟩

/-! ### The processing lists -/

def Delivery.entry : Delivery → Option JobId
  | .popped j | .pushed j | .closing j | .kept j => some j
  | p => p.copy.map Prod.fst

/-- As long as no sweep interferes, the job of a worker is on its processing list. -/
def Listed (v : Pool) : Prop := ∀ w j, (v.worker w).entry = some j → j ∈ v.store.processing w

theorem Delivery.entry_of_holds (h : 0 < p.holds cfg j) : p.entry = some j := by
  by_contra hne
  cases p <;> simp_all [holds, entry, copy]

theorem Delivery.Step.entry (hd : Delivery.Step cfg w q c r p) (he : σ.Exec c r σ')
    (hp : p.entry = some j) : j ∈ σ'.processing w ∨
      q.entry = some j ∧ σ'.processing w = σ.processing w := by
  cases hd with
  | inert hi => exact .inr ⟨hp, congrFun (he.inert hi).processing w⟩
  | pop =>
    obtain ⟨ha, rfl⟩ := he.ok
    obtain ⟨l, hl, hσ⟩ := blmove_some ha
    cases hp
    rw [hσ]
    exact .inl (by simp)
  | pickUp =>
    refine .inr ⟨?_, he.processing_eq (by simp) (fun _ => by simp)⟩
    unfold Queue.pickUp at hp
    split at hp <;> exact hp
  | popNone | popError | register | ackDropped | ackPushed | ack | unregister => cases hp
  | _ => exact .inr ⟨hp, he.processing_eq (by simp) (fun _ => by simp)⟩

theorem Listed.step (hv : Listed v) (h : Pool.Step cfg v a v') (hc : calm v a = true) :
    Listed v' := by
  intro w j hw
  cases h with
  | worker hl he hd =>
    dsimp only
    obtain ⟨rfl, hp⟩ | ⟨hx, hp⟩ := update_or (P := (entry · = some j)) hw
    · rcases hd.entry he hp with hj | ⟨hq, hσ⟩
      · exact hj
      · rw [hσ]
        exact hv w j hq
    · rw [he.processing_eq ?_ ?_]
      · exact hv w j hp
      · rintro rfl
        exact hx hd.popper
      · rintro i rfl
        exact hx hd.acker
  | client he hs =>
    dsimp only
    rw [he.processing_eq (hs.foreign rfl) fun _ => hs.foreign rfl]
    exact hv w j hw
  | start | turn | stop => exact hv w j (of_update (P := (entry · = some j)) hw nofun)
  | reaper | crash | crashClient | expireLease => cases hc
  | _ => exact hv w j hw

/-- Unless a cancel takes a job off the queue, a completed or cancelled job that is on no
list has left no artifact in storage. -/
theorem finished_job_leaves_no_artifact {cfg : Config} {s : Fleet} {j : JobId} {h : JobHash}
    {k : StorageKey} {st : JobStatus} (hcfg : cfg.hasStore = true)
    (hr : (machine cfg).Reach (Fleet.Under cfg fun v a => tidy cfg v a = true) {} s)
    (hj : s.pool.store.jobs j = some h) (hk : h.storageKey = some k) (hne : k ≠ "")
    (hs : h.status = some st) (hst : st = .completed ∨ st = .cancelled)
    (hq : j ∉ s.pool.store.jobQueue) (hw : ∀ w, j ∉ s.pool.store.processing w) :
    s.pool.store.objects k = false := by
  have hv : Tidy cfg s.pool ∧ Listed s.pool :=
    invariant_of_reach (I := fun v => Tidy cfg v ∧ Listed v) ok_init
      ⟨.init, nofun⟩ (fun v a v' hv hg hs => by
        have hc : calm v a = true := by
          simp only [tidy, Bool.and_eq_true] at hg
          exact hg.1.1
        exact ⟨hv.1.step hcfg hs hg, hv.2.step hs hc⟩) hr
  obtain ⟨k', hk', u, hu, rfl, rfl⟩ := hv.1.keyed.hash hj
  rw [hk] at hk'
  cases hk'
  by_contra hobj
  have hlives : st.lives = true := by
    rcases hst with rfl | rfl <;> rfl
  have hstatus : s.pool.store.status u.id = some st := by simp [status, hj, hs]
  rcases hv.1.retained hu hne (by simpa using hobj) hstatus hlives with hm | ⟨w, hm⟩
  · exact hq hm
  · exact hw w (hv.2 w u.id (entry_of_holds hm))

/-- A job that is cancelled in the middle of its scan takes its artifact with it. -/
theorem cancelled_scan_leaves_no_artifact :
    ∃ s, (machine {}).Reach (Fleet.Under {} fun v a => tidy {} v a = true) {} s ∧
      s.pool.store.status "job" = some .cancelled ∧ "job" ∉ s.pool.store.jobQueue ∧
      (∀ w, "job" ∉ s.pool.store.processing w) ∧ s.pool.store.objects "job.apk" = false := by
  let ls := poppedRun ++ claimRun "w" ++ [.cancel 0 "job", .serve 0 (.time 5), .serve 0 .ok,
    .work "w" (.stage (.fail { msg := "context canceled" } false)), .work "w" .ok, .work "w" .ok,
    .work "w" .ok]
  obtain ⟨s, hs⟩ : ∃ s, (machine {}).execIf (passes {} (tidy {})) {} ls = some s :=
    isSome_iff_exists.mp (by decide)
  have he : (machine {}).exec {} ls = some s := hs
  have hr := Machine.reach_of_execIf (fun _ _ => under_of_passes) ls hs
  have hw : ∀ w, "job" ∉ s.pool.store.processing w := by
    refine processing_of_exec ls he ?_
    cases hs
    decide
  obtain ⟨h, hj, hk, hst, hq⟩ : ∃ h, s.pool.store.jobs "job" = some h ∧
      h.storageKey = some "job.apk" ∧ h.status = some .cancelled ∧
      "job" ∉ s.pool.store.jobQueue := by
    cases hs
    exact ⟨_, rfl, rfl, rfl, by decide⟩
  exact ⟨s, hr, by simp [status, hj, hst], hq, hw,
    finished_job_leaves_no_artifact rfl hr hj hk (by decide) hst (.inr rfl) hq hw⟩

/-- A job that is cancelled while it waits on the queue leaves its artifact behind: the
cancel takes the id off the queue, and no worker ever sees it. -/
theorem cancelled_waiting_job_leaves_artifact :
    ∃ s, (machine {}).Reach
        (Fleet.Under {} fun v a => (calm v a && orderly {} false a) = true) {} s ∧ s.Quiet ∧
      s.pool.store.status "job" = some .cancelled ∧ "job" ∉ s.pool.store.jobQueue ∧
      (∀ w, "job" ∉ s.pool.store.processing w) ∧ s.pool.store.objects "job.apk" = true := by
  let ls : List Label := [.upload 0 { id := "job", storageKey := "job.apk" } 0, .serve 0 .ok,
    .serve 0 .ok, .cancel 0 "job", .serve 0 (.time 5), .serve 0 .ok]
  obtain ⟨s, hs⟩ : ∃ s, (machine {}).execIf
      (passes {} fun v a => calm v a && orderly {} false a) {} ls = some s :=
    isSome_iff_exists.mp (by decide)
  have he : (machine {}).exec {} ls = some s := hs
  have hr := Machine.reach_of_execIf (fun _ _ => under_of_passes) ls hs
  have hw : ∀ w, "job" ∉ s.pool.store.processing w := by
    refine processing_of_exec ls he ?_
    cases hs
    decide
  refine ⟨s, hr, ?_, ?_⟩
  · cases hs
    exact quiet_of_exec ls he (by decide) (by decide) (by decide)
  · cases hs
    exact ⟨rfl, by decide, hw, rfl⟩

end Morf.Queue
