import Morf.Queue.Steady

/-! Where a job is, and what one step can do about it: a step is about other jobs, or it takes
the job from the hands of a worker or a request to a list or back.  Each position of a worker
says how the retry counter bounds the scans the job has had. -/

namespace Morf.Queue

open Morf.Lib Store Cmd Action

def Action.attempts (j : JobId) : Action → Nat
  | .worker w (.leased i _) (.remote (.getLease _)) r =>
    if i = j ∧ taken w r = false then 1 else 0
  | _ => 0

def Action.revives (j : JobId) : Action → Bool
  | .client _ (.resubmitting job) (.remote (.enqueueScript _)) (.ok _) => job.id = j
  | _ => false

def scans (j : JobId) : List Action → Nat
  | [] => 0
  | a :: hist => if a.revives j then 0 else scans j hist + a.attempts j

/-- Nothing disturbs the jobs: the run is smooth, no job is cancelled, and a client submits
a new job under a new id. -/
def undisturbed (v : Pool) : Action → Bool
  | .client _ _ (.remote (.cancelJobScript _ _)) _ => false
  | .submit _ (.uploading job) | .submit _ (.enqueuing job) =>
    job.id ∉ v.issued.map (·.id) ∧ job.status = .queued
  | a => smooth v a

inductive Spot
  | queue
  | dead
  | worker (w : WorkerId)
  | client (n : Nat)
  deriving DecidableEq

def Delivery.bears (j : JobId) : Delivery → Bool
  | .popped i | .read i _ | .claimed i _ | .leased i _ | .scanning i _ | .rechecking i _
  | .succeeding i _ | .failing i _ | .completing i _ | .committed i _ | .requeued i _
  | .buried i _ => i = j
  | _ => false

def Request.bears (j : JobId) : Request → Bool
  | .uploading job | .stored job | .enqueuing job | .resubmitting job => job.id = j
  | .removed i => i = j
  | _ => false

def Pool.holds (v : Pool) (j : JobId) : Spot → Nat
  | .queue => v.store.jobQueue.count j
  | .dead => v.store.dlq.count j
  | .worker w => ((v.worker w).bears j).toNat
  | .client n => ((v.client n).bears j).toNat

def Store.Waiting (σ : Store) (max n : Nat) (j : JobId) : Prop :=
  ∃ h, σ.jobs j = some h ∧ h.fromMap.status = .queued ∧ n ≤ h.fromMap.retryCount ∧ n < max

def Store.Leased (σ : Store) (w : WorkerId) (j : JobId) : Prop :=
  σ.lease j = some w ∨ σ.lease j = none

def Delivery.Fits (max n : Nat) (σ : Store) (w : WorkerId) : Delivery → Prop
  | .popped j | .requeued j _ => σ.Waiting max n j
  | .read _ job => n ≤ job.retryCount ∧ n < max
  | .claimed j job => σ.status j = some .processing ∧ n ≤ job.retryCount ∧ n < max
  | .leased j job =>
    σ.status j = some .processing ∧ σ.Leased w j ∧ n ≤ job.retryCount ∧ n < max
  | .scanning j job | .rechecking j job | .succeeding j job | .failing j job
  | .completing j job =>
    σ.status j = some .processing ∧ σ.Leased w j ∧ n ≤ job.retryCount + 1 ∧ n ≤ max
  | .committed _ job => n ≤ job.retryCount + 1 ∧ n ≤ max
  | .buried j _ => σ.status j = some .failed ∧ n ≤ max
  | _ => True

def Request.Fits (max n : Nat) (σ : Store) : Request → Prop
  | .uploading job | .stored job | .enqueuing job =>
    σ.jobs job.id = none ∧ job.status = .queued ∧ n = 0
  | .removed j => σ.status j = some .failed ∧ n ≤ max
  | .resubmitting job => job.status = .queued ∧ n ≤ max
  | _ => True

def Fits (cfg : Config) (v : Pool) (j : JobId) : Option Spot → Prop
  | some .queue => v.store.Waiting cfg.maxRetries (scans j v.hist) j
  | some .dead => v.store.status j = some .failed ∧ scans j v.hist ≤ cfg.maxRetries
  | some (.worker w) => (v.worker w).Fits cfg.maxRetries (scans j v.hist) v.store w
  | some (.client n) => (v.client n).Fits cfg.maxRetries (scans j v.hist) v.store
  | none => v.store.jobs j = none ∧ scans j v.hist = 0 ∨
      v.store.status j = some .completed ∧ scans j v.hist ≤ cfg.maxRetries

structure Located (cfg : Config) (v : Pool) (j : JobId) (pl : Option Spot) : Prop where
  only : ∀ q, v.holds j q = if pl = some q then 1 else 0
  unknown : j ∉ v.issued.map (·.id) → pl = none ∧ v.store.jobs j = none ∧ scans j v.hist = 0
  fits : Fits cfg v j pl

/-! ### Steps that are about other jobs -/

def Cmd.target : (c : Cmd) → Reply c → Option JobId
  | .remote (.blmove _), .ok o => o
  | .remote (.hset job), _ | .remote (.enqueueScript job), _ => some job.id
  | .remote (.enqueueWithLimitScript job _ _), .ok true => some job.id
  | .remote (.rpush j), _ | .remote (.hsetPhase j _), _ | .remote (.moveToDLQScript j), _
  | .remote (.cancelJobScript j _), _ | .remote (.setLease j _), _ => some j
  | .remote (.retryDLQRemoveScript j), .ok true => some j
  | _, _ => none

structure Store.Beside (j : JobId) (σ σ' : Store) : Prop where
  jobs : σ'.jobs j = σ.jobs j
  queue : σ'.jobQueue.count j = σ.jobQueue.count j
  dlq : σ'.dlq.count j = σ.dlq.count j
  lease : σ'.lease j = σ.lease j ∨ σ'.lease j = none

variable {c : Cmd} {σ : Store} {p : Delivery} {q : Request} {max : Nat}

theorem Store.Beside.refl (σ : Store) : σ.Beside j σ := ⟨rfl, rfl, rfl, .inl rfl⟩

theorem Store.Same.beside (h : σ.Same σ') : σ.Beside j σ' :=
  ⟨by rw [h.jobs], by rw [h.jobQueue], by rw [h.dlq], .inl (by rw [h.lease])⟩

theorem Store.beside_hsetJob (hi : i ≠ j) (σ : Store) (new : JobHash) :
    σ.Beside j (σ.hsetJob i new) := ⟨σ.hsetJob_of_ne new hi.symm, rfl, rfl, .inl rfl⟩

theorem Store.beside_publish (hj : job.id ≠ j) (σ : Store) : σ.Beside j (σ.publish job) :=
  ⟨by rw [publish_jobs, hsetJob_of_ne _ _ hj.symm], by simp [hj], rfl,
    .inl rfl⟩

theorem Store.Exec.beside (h : σ.Exec c r σ') (hc : c.target r ≠ some j) : σ.Beside j σ' := by
  cases h.effect with
  | ok c =>
    cases c with
    | blmove w =>
      cases hq : σ.jobQueue with
      | nil =>
        simp only [apply, hq]
        exact .refl σ
      | cons i l =>
        have hi : i ≠ j := by simpa [target, apply, hq] using hc
        exact ⟨by simp [apply, hq], by simp [apply, hq, hi], by simp [apply, hq],
          .inl (by simp [apply, hq])⟩
    | rpush i =>
      have hi : i ≠ j := by simpa [target] using hc
      exact ⟨rfl, by simp [apply, hi], rfl, .inl rfl⟩
    | hset job => exact beside_hsetJob (by simpa [target] using hc) σ _
    | hsetPhase i ph => exact beside_hsetJob (by simpa [target] using hc) σ _
    | enqueueScript job => exact beside_publish (by simpa [target] using hc) σ
    | enqueueWithLimitScript job limit count =>
      simp only [apply] at hc ⊢
      split at hc
      · rw [if_pos ‹_›]
        exact .refl σ
      · rw [if_neg ‹_›]
        exact beside_publish (by simpa [target] using hc) σ
    | moveToDLQScript i =>
      have hi : i ≠ j := by simpa [target] using hc
      exact ⟨rfl, rfl, by simp [apply, hi], .inl rfl⟩
    | retryDLQRemoveScript i =>
      refine ⟨rfl, rfl, ?_, .inl rfl⟩
      simp only [apply] at hc ⊢
      by_cases hm : i ∈ σ.dlq
      · have hi : i ≠ j := by simpa [target, hm] using hc
        rw [List.count_erase_of_ne hi.symm]
      · rw [List.erase_of_not_mem hm]
    | cancelJobScript i t =>
      have hi : i ≠ j := by simpa [target] using hc
      obtain ⟨-, h⟩ | ⟨g, -, -, -, hjobs, hq, -, hd, hl, -⟩ := σ.cancel_cases i t
      · rw [apply, h]
        exact .refl σ
      · refine ⟨?_, ?_, by rw [apply, hd], .inl (by rw [apply, hl])⟩
        · rw [apply, hjobs, hsetJob_of_ne _ _ hi.symm]
        · rw [apply, hq]
          split
          · rw [List.count_erase_of_ne hi.symm]
          · rfl
    | setLease i x =>
      have hi : i ≠ j := by simpa [target] using hc
      exact ⟨rfl, rfl, rfl, .inl (Function.update_of_ne hi.symm ..)⟩
    | delLease i =>
      refine ⟨rfl, rfl, rfl, ?_⟩
      by_cases hi : i = j
      · subst hi
        exact .inr (Function.update_self ..)
      · exact .inl (Function.update_of_ne (Ne.symm hi) ..)
    | _ => exact ⟨rfl, rfl, rfl, .inl rfl⟩
  | _ => exact ⟨rfl, rfl, rfl, .inl rfl⟩

theorem Cmd.target_of_inert (hc : c.inert = true) : c.target r = none := by
  cases c with
  | remote c => cases c <;> first | rfl | cases hc
  | _ => rfl

theorem Action.attempts_of_inert (hc : c.inert = true) :
    (worker w p c r).attempts j = 0 := by
  unfold attempts
  split
  · rename_i heq
    cases heq
    cases hc
  · rfl

theorem Delivery.Step.aside (hd : Delivery.Step cfg w p c r p') (he : σ.Exec c r σ')
    (hid : ∀ {i job}, p.copy = some (i, job) → job.id = i) (hp : p.bears j = false) :
    (p'.bears j = false ∧ c.target r ≠ some j ∧ (worker w p c r).attempts j = 0) ∨
      p' = .popped j ∧ (worker w p c r).attempts j = 0 ∧
        ∃ l, σ.jobQueue = j :: l ∧ σ' = { σ with
          jobQueue := l
          processing := Function.update σ.processing w (σ.processing w ++ [j]) } := by
  cases hd with
  | inert hi => exact .inl ⟨hp, by simp [target_of_inert hi], attempts_of_inert hi⟩
  | pop =>
    rename_i i
    by_cases hi : i = j
    · subst hi
      obtain ⟨ha, rfl⟩ := he.ok
      exact .inr ⟨rfl, rfl, blmove_some ha⟩
    · exact .inl ⟨by simpa [bears] using hi, by simpa [target] using hi, rfl⟩
  | pickUp =>
    refine .inl ⟨?_, by simp [target], rfl⟩
    unfold Queue.pickUp
    split <;> simp_all [bears]
  | claim hj | unclaimed hj | requeue hj | bury hj | complete hj | completeError hj =>
    have hid := hid rfl
    have := hj.same.1
    refine .inl ⟨?_, ?_, rfl⟩ <;> simp_all [bears, target]
  | commitError hj =>
    have hid := hid rfl
    have := hj.elim (fun h => h.same.1) (fun h => h.same.1)
    refine .inl ⟨?_, ?_, rfl⟩ <;> simp_all [bears, target]
  | phase | push | pushError | deadLetter =>
    have hid := hid rfl
    refine .inl ⟨?_, ?_, rfl⟩ <;> simp_all [bears, target]
  | _ => refine .inl ⟨?_, ?_, ?_⟩ <;> simp_all [bears, target, attempts]

theorem Request.Step.aside (hs : Request.Step q c r q') (he : v.store.Exec c r σ')
    (hv : Named v) (hg : undisturbed v (.client k q c r) = true) (hq : q.bears j = false) :
    (client k q c r).revives j = false ∧
      ((q'.bears j = false ∧ c.target r ≠ some j) ∨
        q' = .removed j ∧ j ∈ v.store.dlq ∧ σ' = { v.store with dlq := v.store.dlq.erase j }) := by
  cases hs with
  | remove =>
    rename_i i
    refine ⟨rfl, ?_⟩
    by_cases hi : i = j
    · subst hi
      obtain ⟨ha, rfl⟩ := he.ok
      exact .inr ⟨rfl, by simpa [apply] using ha, rfl⟩
    · exact .inl ⟨by simpa [bears] using hi, by simpa [target] using hi⟩
  | reread =>
    rename_i i h
    have hh : v.store.jobs i = some h := he.ok.1.symm
    exact ⟨rfl, .inl ⟨by simpa [bears, hv.resubmitted_id hh] using hq, by simp [target]⟩⟩
  | resubmit =>
    rename_i job r
    have hne : job.id ≠ j := by simpa [bears] using hq
    refine ⟨?_, .inl ⟨rfl, by simpa [target] using hne⟩⟩
    unfold revives
    split
    · rename_i heq
      cases heq
      simpa using hne
    · rfl
  | cancel => cases hg
  | publish | enqueue =>
    exact ⟨rfl, .inl ⟨rfl, by simpa [target, bears] using hq⟩⟩
  | enqueueWithLimit =>
    refine ⟨rfl, .inl ⟨rfl, ?_⟩⟩
    unfold target
    split <;> simp_all [bears]
  | put => exact ⟨rfl, .inl ⟨hq, by simp [target]⟩⟩
  | _ => exact ⟨rfl, .inl ⟨rfl, by simp [target]⟩⟩

theorem Store.Waiting.beside (h : σ.Waiting max n j) (hs : σ.Beside j σ') : σ'.Waiting max n j := by
  unfold Waiting
  rwa [hs.jobs]

theorem Store.Leased.beside (h : σ.Leased w j) (hs : σ.Beside j σ') : σ'.Leased w j := by
  rcases hs.lease with hl | hl
  · unfold Leased
    rwa [hl]
  · exact .inr hl

theorem Store.Beside.status (hs : σ.Beside j σ') : σ'.status j = σ.status j := by
  simp only [Store.status, hs.jobs]

theorem Delivery.Fits.beside (h : p.Fits max n σ w) (hp : p.bears j = true) (hs : σ.Beside j σ') :
    p.Fits max n σ' w := by
  cases p with
  | popped i | requeued i =>
    obtain rfl : i = j := of_decide_eq_true hp
    exact Store.Waiting.beside h hs
  | read => exact h
  | committed => exact h
  | claimed i | buried i =>
    obtain rfl : i = j := of_decide_eq_true hp
    exact ⟨hs.status.trans h.1, h.2⟩
  | leased i | scanning i | rechecking i | succeeding i | failing i | completing i =>
    obtain rfl : i = j := of_decide_eq_true hp
    exact ⟨hs.status.trans h.1, h.2.1.beside hs, h.2.2⟩
  | _ => trivial

theorem Request.Fits.beside (h : q.Fits max n σ) (hq : q.bears j = true) (hs : σ.Beside j σ') :
    q.Fits max n σ' := by
  cases q with
  | uploading job | stored job | enqueuing job =>
    obtain rfl : job.id = j := of_decide_eq_true hq
    exact ⟨hs.jobs.trans h.1, h.2⟩
  | removed i =>
    obtain rfl : i = j := of_decide_eq_true hq
    exact ⟨hs.status.trans h.1, h.2⟩
  | resubmitting => exact h
  | _ => trivial

theorem Located.beside (h : Located cfg v j pl) (hs : v.store.Beside j v'.store)
    (hw : ∀ w, v'.worker w = v.worker w ∨
      (v.worker w).bears j = false ∧ (v'.worker w).bears j = false)
    (hc : ∀ n, v'.client n = v.client n ∨
      (v.client n).bears j = false ∧ (v'.client n).bears j = false)
    (hi : j ∈ v.issued.map (·.id) → j ∈ v'.issued.map (·.id))
    (hn : scans j v'.hist = scans j v.hist) : Located cfg v' j pl where
  only q := by
    rw [← h.only q]
    cases q with
    | queue => exact hs.queue
    | dead => exact hs.dlq
    | worker w => rcases hw w with hw | ⟨hw, hw'⟩ <;> simp [Pool.holds, *]
    | client n => rcases hc n with hc | ⟨hc, hc'⟩ <;> simp [Pool.holds, *]
  unknown hj := by
    rw [hs.jobs, hn]
    exact h.unknown (mt hi hj)
  fits := by
    have hf := h.fits
    have ho := h.only
    rcases pl with _ | _ | _ | w | n
    · simp only [Fits, hs.jobs, hs.status, hn]
      exact hf
    · simp only [Fits, hn]
      exact hf.beside hs
    · simp only [Fits, hs.status, hn]
      exact hf
    · have hb : (v.worker w).bears j = true := by simpa [Pool.holds] using ho (.worker w)
      rcases hw w with hw | ⟨hw, -⟩
      · simp only [Fits, hn, hw]
        exact hf.beside hb hs
      · rw [hw] at hb
        cases hb
    · have hb : (v.client n).bears j = true := by simpa [Pool.holds] using ho (.client n)
      rcases hc n with hc | ⟨hc, -⟩
      · simp only [Fits, hn, hc]
        exact hf.beside hb hs
      · rw [hc] at hb
        cases hb

/-! ### Steps of the worker that bears the job -/

theorem Store.Leased.not_taken {r : Reply (.remote (.getLease j))} (h : σ.Leased w j)
    (he : σ.Exec (.remote (.getLease j)) r σ') : taken w r = false := by
  obtain ⟨rfl, -⟩ | ⟨⟨m, rfl⟩, -⟩ := he.remote
  · rcases h with h | h <;> simp [apply, h, taken]
  · rfl

theorem Store.Exec.lookedUp {r : Reply (.remote (.getLease j))}
    (he : σ.Exec (.remote (.getLease j)) r σ') : σ' = σ := by
  obtain ⟨-, rfl⟩ | ⟨-, rfl⟩ := he.remote <;> rfl

theorem Store.waiting_hset {job : ScanJob} (hs : job.status = .queued) (hn : n ≤ job.retryCount)
    (hm : n < max) (σ : Store) : (σ.hsetJob job.id job.toMap).Waiting max n job.id :=
  ⟨_, σ.hsetJob_self job.id job.toMap, by simp [hs], by simp [hn], hm⟩

theorem claim.retryCount (h : claim w job job') : job'.retryCount = job.retryCount :=
  (congrArg ScanJob.retryCount h :)

theorem retry.retryCount (h : retry max job job') : job'.retryCount = job.retryCount + 1 :=
  congrArg ScanJob.retryCount h.1

theorem Delivery.Step.carries (hd : Delivery.Step cfg w p c r p') (he : σ.Exec c r σ')
    (hid : ∀ {i job}, p.copy = some (i, job) → job.id = i) (hs : c.served r = true)
    (hp : p.bears j = true) (hf : p.Fits cfg.maxRetries n σ w)
    (hn : n' = n + (worker w p c r).attempts j) :
    (p'.bears j = true ∧ p'.Fits cfg.maxRetries n' σ' w ∧
        σ'.jobQueue.count j = σ.jobQueue.count j ∧ σ'.dlq.count j = σ.dlq.count j) ∨
      p'.bears j = false ∧
        (σ'.Waiting cfg.maxRetries n' j ∧ σ'.jobQueue.count j = σ.jobQueue.count j + 1 ∧
            σ'.dlq.count j = σ.dlq.count j ∨
          σ'.status j = some .failed ∧ n' ≤ cfg.maxRetries ∧
            σ'.jobQueue.count j = σ.jobQueue.count j ∧ σ'.dlq.count j = σ.dlq.count j + 1 ∨
          σ'.status j = some .completed ∧ n' ≤ cfg.maxRetries ∧
            σ'.jobQueue.count j = σ.jobQueue.count j ∧ σ'.dlq.count j = σ.dlq.count j) := by
  have on : p'.bears j = true → p'.Fits cfg.maxRetries n' σ' w →
      σ'.jobQueue = σ.jobQueue ∧ σ'.dlq = σ.dlq → p'.bears j = true ∧
        p'.Fits cfg.maxRetries n' σ' w ∧ σ'.jobQueue.count j = σ.jobQueue.count j ∧
        σ'.dlq.count j = σ.dlq.count j := by
    rintro hb hf ⟨hq, hd⟩
    exact ⟨hb, hf, by rw [hq], by rw [hd]⟩
  cases hd with
  | inert hi =>
    rw [attempts_of_inert hi] at hn
    subst hn
    exact .inl (on hp (hf.beside hp (he.inert hi).beside) ⟨(he.inert hi).jobQueue, (he.inert hi).dlq⟩)
  | pickUp =>
    rename_i i h
    obtain rfl : i = j := of_decide_eq_true hp
    obtain ⟨ha, rfl⟩ := he.ok
    obtain ⟨g, hg, hst, hc⟩ := hf
    obtain rfl : h = g := by simpa [apply, hg] using ha
    have hpick : Queue.pickUp i h = .read i h.fromMap := by simp only [Queue.pickUp, hst]
    subst hn
    rw [hpick]
    exact .inl ⟨decide_eq_true rfl, hc, rfl, rfl⟩
  | missing =>
    rename_i i
    obtain ⟨ha, -⟩ := he.ok
    obtain ⟨g, hg, -⟩ := hf
    simp [apply, hg] at ha
  | claim hj =>
    rename_i job job' i u
    obtain rfl : i = j := of_decide_eq_true hp
    obtain ⟨-, rfl⟩ := he.ok
    obtain rfl : job'.id = i := hj.same.1.trans (hid rfl)
    subst hn
    refine .inl (on hp ⟨?_, ?_⟩ ⟨rfl, rfl⟩)
    · exact (σ.status_hset job').trans (congrArg some hj.status)
    · rw [hj.retryCount]
      exact hf
  | lease =>
    rename_i i job r
    obtain rfl : i = j := of_decide_eq_true hp
    subst hn
    obtain ⟨-, rfl⟩ | ⟨⟨m, rfl⟩, -⟩ := he.remote
    · exact .inl (on hp ⟨hf.1, .inl (Function.update_self ..), hf.2⟩ ⟨rfl, rfl⟩)
    · cases hs
  | owned ht =>
    rename_i r i job
    obtain rfl : i = j := of_decide_eq_true hp
    obtain rfl := he.lookedUp
    have ha : (worker w (.leased i job) (.remote (.getLease i)) r).attempts i = 1 :=
      if_pos ⟨rfl, ht⟩
    rw [ha] at hn
    subst hn
    obtain ⟨hst, hl, hc, hm⟩ := hf
    exact .inl (on hp ⟨hst, hl, Nat.succ_le_succ hc, hm⟩ ⟨rfl, rfl⟩)
  | phase =>
    rename_i i job ph r
    obtain rfl : i = j := of_decide_eq_true hp
    have hji : job.id = i := hid rfl
    subst hn
    obtain ⟨-, rfl⟩ | ⟨-, rfl⟩ := he.remote
    · refine .inl (on hp ⟨?_, hf.2⟩ ⟨rfl, rfl⟩)
      rw [← hf.1]
      subst hji
      exact σ.status_hsetPhase job.id job.id ph
    · exact .inl (on hp hf ⟨rfl, rfl⟩)
  | stage | compiled | scanned | scanError | panic =>
    obtain rfl := he.analyze
    subst hn
    exact .inl (on hp hf ⟨rfl, rfl⟩)
  | abort hc =>
    rename_i i job h
    have hjobs : σ.jobs i = some h := he.ok.1.symm
    have hst : h.status = some .processing := by simpa [Store.status, hjobs] using hf.1
    simp [hst] at hc
  | recheck | recheckMissing =>
    obtain ⟨-, rfl⟩ := he.ok
    subst hn
    exact .inl (on hp hf ⟨rfl, rfl⟩)
  | success =>
    obtain rfl := he.lookedUp
    subst hn
    exact .inl (on hp hf ⟨rfl, rfl⟩)
  | failure | marshal =>
    obtain rfl := he.lookedUp
    subst hn
    exact .inl (on hp hf.2.2 ⟨rfl, rfl⟩)
  | taken ht =>
    rw [hf.2.1.not_taken he] at ht
    cases ht
  | staleSuccess ht | staleFailure ht | staleMarshal ht =>
    rename_i r i job
    obtain rfl : job.id = i := hid rfl
    rw [hf.2.1.not_taken he] at ht
    cases ht
  | complete hj =>
    rename_i job job' i u
    obtain rfl : i = j := of_decide_eq_true hp
    obtain ⟨-, rfl⟩ := he.ok
    obtain rfl : job'.id = i := hj.same.1.trans (hid rfl)
    subst hn
    refine .inr ⟨rfl, .inr (.inr ⟨?_, hf.2.2.2, rfl, rfl⟩)⟩
    exact (σ.status_hset job').trans (congrArg some hj.status)
  | requeue hj =>
    rename_i job job' i u
    obtain rfl : i = j := of_decide_eq_true hp
    obtain ⟨-, rfl⟩ := he.ok
    obtain rfl : job'.id = i := hj.same.1.trans (hid rfl)
    subst hn
    refine .inl (on hp (waiting_hset hj.status ?_ (Nat.lt_of_le_of_lt hf.1 hj.2) σ) ⟨rfl, rfl⟩)
    rw [hj.retryCount]
    exact hf.1
  | bury hj =>
    rename_i job job' i u
    obtain rfl : i = j := of_decide_eq_true hp
    obtain ⟨-, rfl⟩ := he.ok
    obtain rfl : job'.id = i := hj.same.1.trans (hid rfl)
    subst hn
    refine .inl (on hp ⟨?_, hf.2⟩ ⟨rfl, rfl⟩)
    exact (σ.status_hset job').trans (congrArg some hj.status)
  | push =>
    rename_i i job u
    obtain rfl : i = j := of_decide_eq_true hp
    obtain ⟨-, rfl⟩ := he.ok
    obtain rfl : job.id = i := hid rfl
    subst hn
    exact .inr ⟨rfl, .inl ⟨hf, by simp [apply], rfl⟩⟩
  | deadLetter =>
    rename_i i job r
    obtain rfl : i = j := of_decide_eq_true hp
    obtain rfl : job.id = i := hid rfl
    subst hn
    obtain ⟨-, rfl⟩ | ⟨⟨m, rfl⟩, -⟩ := he.remote
    · exact .inr ⟨rfl, .inr (.inl ⟨hf.1, hf.2, rfl, by simp [apply]⟩)⟩
    · cases hs
  | unread | unclaimed | recheckError | completeError | commitError | pushError => cases hs
  | _ => cases hp

theorem Store.waiting_publish (hs : job.status = .queued) (hm : 0 < max) (σ : Store) :
    (σ.publish job).Waiting max 0 job.id := by
  obtain ⟨h, hj, hc⟩ := waiting_hset hs (Nat.zero_le _) hm σ
  exact ⟨h, by rw [publish_jobs, hj], hc⟩

theorem Request.Step.carries (hs : Request.Step q c r q') (he : v.store.Exec c r σ')
    (hv : Named v) (hok : c.served r = true) (hmax : 0 < max) (hq : q.bears j = true)
    (hf : q.Fits max n v.store)
    (hn : n' = if (client k q c r).revives j then 0 else n) :
    (q'.bears j = true ∧ q'.Fits max n' σ' ∧
        σ'.jobQueue.count j = v.store.jobQueue.count j ∧ σ'.dlq.count j = v.store.dlq.count j) ∨
      q'.bears j = false ∧ σ'.dlq.count j = v.store.dlq.count j ∧
        (σ'.Waiting max n' j ∧ σ'.jobQueue.count j = v.store.jobQueue.count j + 1 ∨
          σ'.jobs j = none ∧ n' = 0 ∧ σ'.jobQueue.count j = v.store.jobQueue.count j) := by
  cases hs with
  | put =>
    rename_i job u
    obtain ⟨-, rfl⟩ := he.ok
    subst hn
    exact .inl ⟨hq, hf, rfl, rfl⟩
  | putError =>
    rename_i job m
    obtain rfl : job.id = j := of_decide_eq_true hq
    obtain rfl := he.error
    subst hn
    exact .inr ⟨rfl, rfl, .inr ⟨hf.1, hf.2.2, rfl⟩⟩
  | publish =>
    rename_i job l m
    obtain rfl : job.id = j := of_decide_eq_true hq
    obtain rfl := he.published
    obtain ⟨hnone, hst, rfl⟩ := hf
    subst hn
    exact .inr ⟨rfl, rfl, .inl ⟨waiting_publish hst hmax _, by simp⟩⟩
  | full =>
    rename_i job l m
    obtain rfl : job.id = j := of_decide_eq_true hq
    obtain rfl := he.refused
    subst hn
    exact .inr ⟨rfl, rfl, .inr ⟨hf.1, hf.2.2, rfl⟩⟩
  | enqueue =>
    rename_i job r
    obtain rfl : job.id = j := of_decide_eq_true hq
    obtain ⟨hnone, hst, rfl⟩ := hf
    subst hn
    obtain ⟨-, rfl⟩ | ⟨⟨m, rfl⟩, -⟩ := he.remote
    · exact .inr ⟨rfl, rfl, .inl ⟨waiting_publish hst hmax _, by simp [apply]⟩⟩
    · cases hok
  | enqueueWithLimit =>
    rename_i job l m r
    obtain rfl : job.id = j := of_decide_eq_true hq
    obtain ⟨hnone, hst, rfl⟩ := hf
    subst hn
    rcases r with e | _ | _
    · cases hok
    · obtain rfl := he.refused
      exact .inr ⟨rfl, rfl, .inr ⟨hnone, rfl, rfl⟩⟩
    · obtain rfl := he.published
      exact .inr ⟨rfl, rfl, .inl ⟨waiting_publish hst hmax _, by simp⟩⟩
  | reread =>
    rename_i i h
    obtain rfl : i = j := of_decide_eq_true hq
    have hh : v.store.jobs i = some h := he.ok.1.symm
    obtain ⟨-, rfl⟩ := he.ok
    subst hn
    exact .inl ⟨by simp [bears, hv.resubmitted_id hh], ⟨rfl, hf.2⟩, rfl, rfl⟩
  | missing =>
    rename_i i
    have hh : v.store.jobs i = none := he.ok.1.symm
    have hst := hf.1
    simp [Store.status, hh] at hst
  | resubmit =>
    rename_i job r
    obtain rfl : job.id = j := of_decide_eq_true hq
    obtain ⟨rfl, rfl⟩ | ⟨⟨m, rfl⟩, -⟩ := he.remote
    · have hrev : (client k (.resubmitting job) (.remote (.enqueueScript job))
          (.ok (v.store.apply (.enqueueScript job)).1)).revives job.id = true := decide_eq_true rfl
      rw [hrev, if_pos rfl] at hn
      subst hn
      exact .inr ⟨rfl, rfl, .inl ⟨waiting_publish hf.1 hmax _, by simp [apply]⟩⟩
    · cases hok
  | publishError | rereadError => cases hok
  | _ => cases hq

end Morf.Queue
