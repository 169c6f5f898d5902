import Mathlib.Data.List.Count
import Morf.Queue.Runs

/-! Finality: what can still change the recorded outcome of a job, and the circumstances
under which a cancelled and a completed job stay so. -/

namespace Morf.Queue

open Morf.Lib
open List Function Option Fleet Machine

def Store.outcome (σ : Store) (j : JobId) : Option JobStatus × Option String :=
  (σ.status j, (σ.jobs j).bind (·.result))

def Cmd.records : Cmd → Option JobId
  | .remote (.hset job) | .remote (.enqueueScript job)
  | .remote (.enqueueWithLimitScript job _ _) => some job.id
  | .remote (.cancelJobScript j _) => some j
  | _ => none

theorem Store.outcome_of_jobs {σ σ' : Store} (h : σ'.jobs j = σ.jobs j) :
    σ'.outcome j = σ.outcome j := by
  simp only [outcome, status, h]

theorem Store.outcome_hsetPhase (σ : Store) (i j : JobId) (ph : String) :
    (σ.hsetJob i { phase := some ph }).outcome j = σ.outcome j := by
  by_cases h : j = i
  · subst h
    simp only [outcome, status, hsetJob_self]
    cases σ.jobs j <;> rfl
  · exact outcome_of_jobs (σ.hsetJob_of_ne _ h)

theorem Store.Exec.outcome {σ : Store} {r : Reply c} (h : σ.Exec c r σ') (hc : c.records ≠ some j) :
    σ'.outcome j = σ.outcome j := by
  cases h.effect with
  | ok c =>
    cases c <;> simp only [apply]
    case hset job | enqueueScript job =>
      exact outcome_of_jobs (σ.hsetJob_of_ne _ fun h => hc (by simp [Cmd.records, h]))
    case hsetPhase i ph => exact outcome_hsetPhase σ i j ph
    case enqueueWithLimitScript job limit count =>
      split
      · rfl
      · exact outcome_of_jobs (σ.hsetJob_of_ne _ fun h => hc (by simp [Cmd.records, h]))
    case cancelJobScript i t =>
      obtain ⟨-, h⟩ | ⟨g, -, -, -, hjobs, -⟩ := σ.cancel_cases i t
      · rw [h]
      · refine outcome_of_jobs ?_
        rw [hjobs]
        exact σ.hsetJob_of_ne _ fun h => hc (by simp [Cmd.records, h])
    case blmove w => split <;> rfl
    all_goals rfl
  | _ => rfl

theorem Store.cancel_outcome {σ : Store} (h : σ.status j = some st) (ha : st.isActive = false) :
    (σ.cancel i t).2.outcome j = σ.outcome j := by
  obtain ⟨-, h'⟩ | ⟨g, hg, hst, -, hjobs, -⟩ := σ.cancel_cases i t
  · rw [h']
  · refine outcome_of_jobs ?_
    rw [hjobs]
    refine σ.hsetJob_of_ne _ ?_
    rintro rfl
    simp only [status, hg, bind_some] at h
    rcases hst with hst | hst <;> rw [hst] at h <;> cases h <;> cases ha

def Delivery.writing : Delivery → Option JobId
  | .read j _ | .completing j _ | .committed j _ => some j
  | _ => none

section

variable {p : Delivery} {σ σ' : Store}

theorem Delivery.Step.records (h : Delivery.Step cfg w p c r p') (hc : c.records = some i) :
    ∃ j job, p.writing = some j ∧ p.copy = some (j, job) ∧ job.id = i := by
  cases h with
  | claim hj | unclaimed hj | complete hj | completeError hj | requeue hj | bury hj =>
    cases hc
    exact ⟨_, _, rfl, rfl, hj.same.1.symm⟩
  | commitError hj =>
    cases hc
    rcases hj with hj | hj
    all_goals exact ⟨_, _, rfl, rfl, hj.same.1.symm⟩
  | inert hi =>
    cases c with
    | remote c => cases c <;> first | cases hi; done | cases hc
    | _ => cases hc
  | _ => cases hc

theorem Delivery.Step.outcome (hd : Delivery.Step cfg w (v.worker w) c r p) (hv : Named v)
    (he : v.store.Exec c r σ) (hw : (v.worker w).writing ≠ some j) :
    σ.outcome j = v.store.outcome j := by
  refine he.outcome fun hc => hw ?_
  obtain ⟨i, job, hi, hcopy, rfl⟩ := hd.records hc
  rw [hi, (hv.copy hcopy).1]

theorem Sweep.Step.outcome (hs : Sweep.Step q c r q') (he : σ.Exec c r σ') :
    σ'.outcome j = σ.outcome j := by
  cases hs with
  | lookup hl => rw [he.lookup hl]
  | _ => exact he.outcome nofun

def Action.republishes (j : JobId) : Action → Bool
  | .client _ _ (.remote (.enqueueScript job)) _ => job.id = j
  | .client _ _ (.remote (.enqueueWithLimitScript job _ _)) _ => job.id = j
  | _ => false

theorem Request.Step.outcome (hs : Request.Step q c r q') (he : σ.Exec c r σ')
    (hr : (Action.client n q c r).republishes j = false) (hst : σ.status j = some st)
    (ha : st.isActive = false) : σ'.outcome j = σ.outcome j := by
  cases hs with
  | cancel =>
    obtain ⟨-, rfl⟩ | ⟨-, rfl⟩ := he.remote
    · exact Store.cancel_outcome hst ha
    · rfl
  | enqueue | resubmit | publish | full | publishError | enqueueWithLimit =>
    refine he.outcome fun hc => ?_
    simp only [Cmd.records, some.injEq] at hc
    simp [Action.republishes, hc] at hr
  | _ => exact he.outcome nofun

theorem Pool.Step.outcome (h : Pool.Step cfg v a v') (hv : Named v)
    (hw : ∀ w, (v.worker w).writing ≠ some j) (hr : a.republishes j = false)
    (hst : v.store.status j = some st) (ha : st.isActive = false) :
    v'.store.outcome j = v.store.outcome j := by
  cases h with
  | worker hl he hd => exact hd.outcome hv he (hw _)
  | reaper he hs => exact hs.outcome he
  | client he hs => exact hs.outcome he hr hst ha
  | _ => rfl

theorem Store.status_of_outcome (h : σ'.outcome j = σ.outcome j) :
    σ'.status j = σ.status j := congrArg Prod.fst h

theorem Store.fromMap_status (hs : σ.status j = some st) (hh : σ.jobs j = some h) :
    h.fromMap.status = st := by
  have : h.status = some st := by simpa [status, hh] using hs
  simp [this]

/-! ### Cancelled jobs -/

def Delivery.bound (j : JobId) : Delivery → Bool
  | .read i _ | .succeeding i _ | .failing i _ | .completing i _ | .committed i _
  | .requeued i _ => i = j
  | _ => false

/-- Only workers act on `j`: no client publishes it again and no sweep requeues it. -/
def workersOnly (j : JobId) : Action → Bool
  | .reaper _ _ (.remote (.rpush i)) _ => i ≠ j
  | a => !a.republishes j

theorem republishes_of_workersOnly (h : workersOnly j a = true) : a.republishes j = false := by
  unfold workersOnly at h
  split at h
  · rfl
  · simpa using h

/-- The circumstances under which a cancel is heeded: the scan of `j` ends with an error,
and the status can be read after that. -/
def heedful (j : JobId) : Action → Bool
  | .worker _ (.scanning i _) (.analyze _ ph) (.next _) => i ≠ j || ph ≠ "compiling"
  | .worker _ (.scanning i _) (.analyze _ _) (.done _) => i ≠ j
  | .worker _ (.scanning i _) (.analyze _ _) (.panic _) => i ≠ j
  | .worker _ (.rechecking i _) (.remote (.hgetall _)) (.error _) => i ≠ j
  | _ => true

structure Heeded (j : JobId) (v : Pool) : Prop where
  named : Named v
  status : v.store.status j = some .cancelled
  free : ∀ w, (v.worker w).bound j = false

theorem Delivery.writing_of_bound (h : p.bound j = false) : p.writing ≠ some j := by
  cases p <;> simp_all [bound, writing]

theorem Heeded.bound (hv : Heeded j v) (he : v.store.Exec c r σ)
    (hd : Delivery.Step cfg w (v.worker w) c r p)
    (hg : heedful j (.worker w (v.worker w) c r) = true) : p.bound j = false := by
  have hfree := hv.free w
  generalize v.worker w = q at hd hg hfree
  cases hd with
  | inert => exact hfree
  | pickUp =>
    rename_i i h
    by_cases hi : i = j
    · subst hi
      rw [pickUp, Store.fromMap_status hv.status he.ok.1.symm]
      rfl
    · unfold pickUp
      split <;> simp [Delivery.bound, hi]
  | recheck hs =>
    rename_i i job h
    by_cases hi : i = j
    · subst hi
      exact (hs (Store.fromMap_status hv.status he.ok.1.symm)).elim
    · simp [Delivery.bound, hi]
  | recheckMissing =>
    rename_i i job
    by_cases hi : i = j
    · subst hi
      have hj : v.store.jobs i = none := he.ok.1.symm
      have hs := hv.status
      rw [Store.status, hj] at hs
      cases hs
    · simp [Delivery.bound, hi]
  | _ => first | rfl | exact hfree | simpa [heedful, Delivery.bound] using hg

def Cmd.pushes : Cmd → Option JobId
  | .remote (.rpush j) => some j
  | .remote (.enqueueScript job) | .remote (.enqueueWithLimitScript job _ _) => some job.id
  | _ => none

theorem Store.Exec.count_le (h : σ.Exec c r σ') (hc : c.pushes ≠ some j) :
    σ'.jobQueue.count j ≤ σ.jobQueue.count j := by
  have append : ∀ i, i ≠ j → (σ.jobQueue ++ [i]).count j ≤ σ.jobQueue.count j := by
    intro i hi
    simp [hi]
  cases h.effect with
  | ok c =>
    cases c <;> simp only [apply]
    case blmove w =>
      cases hj : σ.jobQueue with
      | nil => simp [hj]
      | cons i q => exact count_le_count_cons
    case rpush | enqueueScript => exact append _ fun h => hc (by simp [Cmd.pushes, h])
    case enqueueWithLimitScript job limit count =>
      split
      · exact Nat.le_refl _
      · exact append job.id fun h => hc (by simp [Cmd.pushes, h])
    case cancelJobScript i t =>
      obtain ⟨-, h⟩ | ⟨g, -, -, -, -, hjq, -⟩ := σ.cancel_cases i t
      · exact Nat.le_of_eq (by rw [h])
      · rw [hjq]
        split
        · exact Sublist.count_le _ erase_sublist
        · exact Nat.le_refl _
    all_goals exact Nat.le_refl _
  | _ => exact Nat.le_refl _

theorem Delivery.Step.pushes (h : Delivery.Step cfg w p c r p') (hc : c.pushes = some i) :
    ∃ j job, p = .requeued j job ∧ job.id = i := by
  cases h with
  | push | pushError =>
    cases hc
    exact ⟨_, _, rfl, rfl⟩
  | inert hi =>
    cases c with
    | remote c => cases c <;> first | cases hi; done | cases hc
    | _ => cases hc
  | _ => cases hc

theorem Heeded.count_le (hv : Heeded j v) (h : Pool.Step cfg v a v')
    (ha : workersOnly j a = true) :
    v'.store.jobQueue.count j ≤ v.store.jobQueue.count j := by
  cases h with
  | worker hl he hd =>
    rename_i w c r σ p
    refine he.count_le fun hc => ?_
    obtain ⟨i, job, hp, rfl⟩ := hd.pushes hc
    have hid := (hv.named.copy (w := w) (by rw [hp]; rfl)).1
    have hfree := hv.free w
    simp [hp, Delivery.bound, hid] at hfree
  | reaper he hs =>
    generalize v.reaper _ = q at hs ha
    cases hs with
    | lookup hl =>
      exact Nat.le_of_eq (by rw [he.lookup hl])
    | push =>
      refine he.count_le fun hc => ?_
      simp only [Cmd.pushes, some.injEq] at hc
      simp [workersOnly, hc] at ha
    | _ => exact he.count_le nofun
  | client he hs =>
    refine he.count_le fun hc => ?_
    generalize v.client _ = q at hs ha
    cases hs with
    | enqueue | resubmit | publish | full | publishError | enqueueWithLimit =>
      simp only [Cmd.pushes, some.injEq] at hc
      simp [workersOnly, Action.republishes, hc] at ha
    | _ => cases hc
  | _ => exact Nat.le_refl _

theorem Heeded.of_cancel (hv : Named v)
    (h : Pool.Step cfg v (.client n q (.remote (.cancelJobScript j t)) (.ok 1)) v')
    (hw : ∀ w, (v.worker w).bound j = false) : Heeded j v' := by
  have hn := hv.step h
  cases h with
  | client he hs =>
    refine ⟨hn, ?_, hw⟩
    obtain ⟨hr, rfl⟩ := he.ok
    obtain ⟨hne, -⟩ | ⟨g, -, -, -, hjobs, -⟩ := v.store.cancel_cases j t
    · exact (hne hr.symm).elim
    · simp only [Store.status, Store.apply, hjobs, Store.hsetJob_self]
      rfl

theorem Heeded.step (hv : Heeded j v) (h : Pool.Step cfg v a v')
    (hg : (workersOnly j a && heedful j a) = true) : Heeded j v' := by
  obtain ⟨ha, hg⟩ := Bool.and_eq_true_iff.mp hg
  have hr := republishes_of_workersOnly ha
  have hst : v'.store.status j = some .cancelled := by
    rw [Store.status_of_outcome (h.outcome hv.named
      (fun w => Delivery.writing_of_bound (hv.free w)) hr hv.status rfl), hv.status]
  refine ⟨hv.named.step h, hst, fun w => ?_⟩
  have move : ∀ {w' p}, p.bound j = false →
      (Function.update v.worker w' p w).bound j = false := by
    intro w' p hp
    by_cases hw : w = w'
    · subst hw
      rwa [update_self]
    · rw [update_of_ne hw]
      exact hv.free w
  cases h with
  | worker hl he hd => exact move (hv.bound he hd hg)
  | start | turn | stop | crash => exact move rfl
  | _ => exact hv.free w

end

/-- A cancel that succeeds while no worker is bound to record another outcome of the job
is final, provided that the scan under way ends with an error. -/
theorem cancel_final {cfg : Config} {s₀ s₁ s s' : Fleet} {l : Label} {n : Nat} {p : Request}
    {j : JobId} {t : Time} (h₀ : (machine cfg).Reach anyStep {} s₀)
    (hc : s₀.next cfg l = some (.client n p (.remote (.cancelJobScript j t)) (.ok 1), s₁))
    (hw : ∀ w, (s₀.pool.worker w).bound j = false)
    (h : (machine cfg).Reach
      (Fleet.Under cfg fun _ a => (workersOnly j a && heedful j a) = true) s₁ s)
    (h' : (machine cfg).Reach
      (Fleet.Under cfg fun _ a => (workersOnly j a && heedful j a) = true) s s') :
    s.pool.store.status j = some .cancelled ∧
      s'.pool.store.jobQueue.count j ≤ s.pool.store.jobQueue.count j := by
  obtain ⟨hstep, hok⟩ := next_step (ok_of_reach ok_init h₀) hc
  have hv₁ := Heeded.of_cancel (named h₀) hstep hw
  have hv : Heeded j s.pool :=
    invariant_of_reach hok hv₁ (fun _ _ _ hv hg hs => hv.step hs hg) h
  refine ⟨hv.status, ?_⟩
  have hle : Heeded j s'.pool ∧
      s'.pool.store.jobQueue.count j ≤ s.pool.store.jobQueue.count j :=
    invariant_of_reach (I := fun v => Heeded j v ∧ v.store.jobQueue.count j ≤ _)
      (ok_of_reach hok h) ⟨hv, Nat.le_refl _⟩
      (fun _ _ _ hv hg hs => ⟨hv.1.step hs hg,
        Nat.le_trans (hv.1.count_le hs (Bool.and_eq_true_iff.mp hg).1) hv.2⟩) h'
  exact hle.2

/-- The scan notices the cancel and gives up. -/
theorem aborted_scan_stays_cancelled :
    ∃ s₀ s₁ s : Fleet, (machine {}).Reach anyStep {} s₀ ∧
      s₀.next {} (.serve 0 .ok) = some (.client 0 (.cancelling "job")
        (.remote (.cancelJobScript "job" 5)) (.ok 1), s₁) ∧
      (machine {}).Reach
        (Fleet.Under {} fun _ a => (workersOnly "job" a && heedful "job" a) = true) s₁ s ∧
      s.Quiet ∧ s.pool.store.status "job" = some .cancelled := by
  let ls := poppedRun ++ claimRun "w" ++ [.cancel 0 "job", .serve 0 (.time 5)]
  let ls' : List Label := [.work "w" (.stage (.fail { msg := "context canceled" } false)),
    .work "w" .ok, .work "w" .ok, .work "w" .ok]
  obtain ⟨s₀, h₀⟩ : ∃ s, (machine {}).exec {} ls = some s :=
    isSome_iff_exists.mp (by decide)
  obtain ⟨s₁, h₁⟩ : ∃ s₁, s₀.next {} (.serve 0 .ok) = some (.client 0 (.cancelling "job")
      (.remote (.cancelJobScript "job" 5)) (.ok 1), s₁) := by
    cases h₀
    exact ⟨_, rfl⟩
  obtain ⟨s, hs⟩ : ∃ s, (machine {}).execIf
      (passes {} fun _ a => workersOnly "job" a && heedful "job" a) s₁ ls' = some s := by
    cases h₀
    cases h₁
    exact isSome_iff_exists.mp (by decide)
  have hq : s.Quiet := by
    have he : (machine {}).exec {} (ls ++ [.serve 0 .ok] ++ ls') = some s := by
      cases h₀
      cases h₁
      cases hs
      rfl
    cases h₀
    cases h₁
    cases hs
    exact quiet_of_exec _ he (by decide) (by decide) (by decide)
  have hbound : ∀ w, (s₀.pool.worker w).bound "job" = false := by
    refine worker_of_exec (P := fun _ p => p.bound "job" = false) ls h₀ (fun _ => rfl) ?_
    cases h₀
    decide
  have hr₀ := reach_of_exec ls h₀
  have hr := reach_of_execIf (fun _ _ => under_of_passes) ls' hs
  exact ⟨s₀, s₁, s, hr₀, h₁, hr, hq, (cancel_final hr₀ h₁ hbound hr .refl).1⟩

/-- A cancel that lands between the read and the claim of a worker is overwritten. -/
theorem claimed_job_not_cancelled :
    ∃ s₀ s₁ s : Fleet, (machine {}).Reach anyStep {} s₀ ∧
      s₀.next {} (.serve 0 .ok) = some (.client 0 (.cancelling "job")
        (.remote (.cancelJobScript "job" 5)) (.ok 1), s₁) ∧
      (machine {}).Reach (Fleet.Under {} fun _ a => workersOnly "job" a = true) s₁ s ∧
      s.pool.store.status "job" = some .processing := by
  let ls := poppedRun ++ [.work "w" .ok, .cancel 0 "job", .serve 0 (.time 5)]
  let ls' : List Label := [.work "w" (.time 6), .work "w" .ok, .work "w" .ok]
  obtain ⟨s₀, h₀⟩ : ∃ s, (machine {}).exec {} ls = some s :=
    isSome_iff_exists.mp (by decide)
  obtain ⟨s₁, h₁⟩ : ∃ s₁, s₀.next {} (.serve 0 .ok) = some (.client 0 (.cancelling "job")
      (.remote (.cancelJobScript "job" 5)) (.ok 1), s₁) := by
    cases h₀
    exact ⟨_, rfl⟩
  obtain ⟨s, hs⟩ : ∃ s, (machine {}).execIf
      (passes {} fun _ a => workersOnly "job" a) s₁ ls' = some s := by
    cases h₀
    cases h₁
    exact isSome_iff_exists.mp (by decide)
  refine ⟨s₀, s₁, s, reach_of_exec ls h₀, h₁,
    reach_of_execIf (fun _ _ => under_of_passes) ls' hs, ?_⟩
  cases h₀
  cases h₁
  cases hs
  rfl

/-! ### Completed jobs -/

section

variable {cfg : Config} {v v' : Pool} {a : Action} {w : WorkerId} {c : Cmd} {r : Reply c}
  {p p' : Delivery}

/-- The circumstances under which the lease fences a stale worker off: nobody publishes
`j` again, and every worker that checks the lease of `j` before a terminal write reads the
name of another worker there. -/
def fenced (j : JobId) (v : Pool) : Action → Bool
  | .worker w (.succeeding i _) (.remote (.getLease _)) r
  | .worker w (.failing i _) (.remote (.getLease _)) r =>
    i ≠ j || r.isOk && taken w (.ok (v.store.lease i))
  | a => !a.republishes j

structure Fenced (j : JobId) (result : Option String) (v : Pool) : Prop where
  named : Named v
  outcome : v.store.outcome j = (some .completed, result)
  free : ∀ w, (v.worker w).writing ≠ some j

theorem Fenced.writing (hv : Fenced j result v) (he : v.store.Exec c r σ)
    (hd : Delivery.Step cfg w (v.worker w) c r p)
    (hg : fenced j v (.worker w (v.worker w) c r) = true) : p.writing ≠ some j := by
  have hfree := hv.free w
  have hid : ∀ {i job}, (v.worker w).copy = some (i, job) → job.id = i :=
    fun h => (hv.named.copy h).1
  have hst : v.store.status j = some .completed := congrArg Prod.fst hv.outcome
  generalize v.worker w = q at hd hg hfree hid
  cases hd with
  | inert => exact hfree
  | pickUp =>
    rename_i i h
    by_cases hi : i = j
    · subst hi
      rw [pickUp, Store.fromMap_status hst he.ok.1.symm]
      intro h
      cases h
    · unfold pickUp
      split <;> simp [Delivery.writing, hi]
  | success ht | failure ht =>
    rename_i i job r
    obtain rfl := hid rfl
    rintro hi
    cases hi
    obtain ⟨rfl, -⟩ | ⟨⟨m, rfl⟩, -⟩ := he.remote
    · simp only [fenced, ne_eq, not_true, decide_false, Bool.false_or, Bool.and_eq_true] at hg
      rw [Store.apply, hg.2] at ht
      cases ht
    · simp [fenced, Except.isOk, Except.toBool] at hg
  | marshal => exact hfree
  | _ =>
    intro h
    cases h

theorem Fenced.step (hv : Fenced j result v) (h : Pool.Step cfg v a v') (hg : fenced j v a = true) :
    Fenced j result v' := by
  have hr : a.republishes j = false := by
    unfold fenced at hg
    split at hg
    · rfl
    · rfl
    · simpa using hg
  have hst : v.store.status j = some .completed := congrArg Prod.fst hv.outcome
  refine ⟨hv.named.step h, (h.outcome hv.named hv.free hr hst rfl).trans hv.outcome, fun w => ?_⟩
  have move : ∀ {w' p}, p.writing ≠ some j →
      (Function.update v.worker w' p w).writing ≠ some j := by
    intro w' p hp
    by_cases hw : w = w'
    · subst hw
      rwa [update_self]
    · rw [update_of_ne hw]
      exact hv.free w
  cases h with
  | worker hl he hd => exact move (hv.writing he hd hg)
  | start | turn | stop | crash => exact move nofun
  | _ => exact hv.free w

theorem Delivery.Step.completes {u : Unit}
    (h : Delivery.Step cfg w p (.remote (.hset job)) (.ok u) p') (hs : job.status = .completed) :
    ∃ j, p' = .completed j job := by
  cases h with
  | inert hi => cases hi
  | complete => exact ⟨_, rfl⟩
  | claim hj =>
    rw [Queue.claim] at hj
    rw [hj] at hs
    cases hs
  | requeue hj =>
    rw [hj.1] at hs
    cases hs
  | bury hj =>
    rw [Queue.failure] at hj
    rw [hj] at hs
    cases hs

theorem Fenced.of_complete {u : Unit} (hv : Named v)
    (h : Pool.Step cfg v (.worker w p (.remote (.hset job)) (.ok u)) v')
    (hs : job.status = .completed) (hw : ∀ w', w' ≠ w → (v.worker w').writing ≠ some job.id) :
    Fenced job.id (v'.store.outcome job.id).2 v' := by
  have hn := hv.step h
  cases h with
  | worker hl he hd =>
    obtain ⟨i, rfl⟩ := hd.completes hs
    obtain ⟨-, rfl⟩ := he.ok
    refine ⟨hn, Prod.ext ?_ rfl, fun w' => ?_⟩
    · simp only [Store.outcome, Store.status, Store.apply, Store.hsetJob_self]
      exact congrArg some hs
    · by_cases hw' : w' = w
      · subst hw'
        simp [Delivery.writing]
      · simpa [hw'] using hw w' hw'

end

/-- A completed job keeps its status and its result, if no other worker was about to
record an outcome when it completed and the lease fences off those that come later. -/
theorem completed_job_fenced {cfg : Config} {s₀ s₁ s : Fleet} {l : Label} {w : WorkerId}
    {p : Delivery} {job : ScanJob} {u : Unit}
    (h₀ : (machine cfg).Reach anyStep {} s₀)
    (hc : s₀.next cfg l = some (.worker w p (.remote (.hset job)) (.ok u), s₁))
    (hs : job.status = .completed)
    (hw : ∀ w', w' ≠ w → (s₀.pool.worker w').writing ≠ some job.id)
    (h : (machine cfg).Reach (Fleet.Under cfg fun v a => fenced job.id v a = true) s₁ s) :
    s.pool.store.status job.id = some .completed ∧
      s.pool.store.outcome job.id = s₁.pool.store.outcome job.id := by
  obtain ⟨hstep, hok⟩ := next_step (ok_of_reach ok_init h₀) hc
  have hv₁ := Fenced.of_complete (named h₀) hstep hs hw
  have hv : Fenced job.id (s₁.pool.store.outcome job.id).2 s.pool :=
    invariant_of_reach hok hv₁ (fun _ _ _ hv hg hs => hv.step hs hg) h
  exact ⟨congrArg Prod.fst hv.outcome, hv.outcome.trans hv₁.outcome.symm⟩

def reapRun : List Label :=
  [.sweep 0 1, .reap 0 (.page ["w"] 0), .reap 0 .ok, .reap 0 (.time 1000), .reap 0 .ok,
   .reap 0 .ok, .reap 0 .ok, .reap 0 .ok]

def takeoverRun : List Label :=
  [.start "v", .work "v" (.time 1000), .work "v" .ok, .turn "v", .work "v" .ok, .work "v" .ok,
   .work "v" (.time 1000), .work "v" .ok, .work "v" .ok, .work "v" .ok, .work "v" .ok,
   .work "v" .ok, .work "v" .ok, .work "v" (.stage (.done ⟨.ok "report"⟩)), .work "v" .ok,
   .work "v" (.time 1001), .work "v" .ok]

def redeliveredRun : List Label := poppedRun ++ claimRun "w" ++ reapRun ++ takeoverRun

theorem redelivered_free (h : (machine {}).exec {} redeliveredRun = some s) :
    ∀ w, w ≠ "v" → (s.pool.worker w).writing ≠ some "job" := by
  refine worker_of_exec (P := fun w p => w ≠ "v" → p.writing ≠ some "job") redeliveredRun
    h (fun _ _ h => by cases h) ?_
  cases h
  decide

/-- The slow worker fails its scan and finds the lease of `v`. -/
theorem stale_failure_fenced :
    ∃ s₀ s₁ s p job, (machine {}).Reach anyStep {} s₀ ∧
      s₀.next {} (.work "v" .ok) = some (.worker "v" p (.remote (.hset job)) (.ok ()), s₁) ∧
      job.id = "job" ∧
      (machine {}).Reach (Fleet.Under {} fun v a => fenced "job" v a = true) s₁ s ∧
      s.pool.worker "w" = .idle ∧ s.pool.store.status "job" = some .completed ∧
      s.pool.store.outcome "job" = s₁.pool.store.outcome "job" := by
  let ls' : List Label :=
    [.work "w" (.stage (.fail { retryable := true, msg := "storage unavailable" } false))] ++
      replicate 3 (.work "w" .ok) ++ replicate 8 (.work "v" .ok)
  obtain ⟨s₀, h₀⟩ : ∃ s, (machine {}).exec {} redeliveredRun = some s :=
    isSome_iff_exists.mp (by decide)
  obtain ⟨s₁, p, job, h₁, hid, hst⟩ : ∃ s₁ p job, s₀.next {} (.work "v" .ok) =
      some (.worker "v" p (.remote (.hset job)) (.ok ()), s₁) ∧ job.id = "job" ∧
      job.status = .completed := by
    cases h₀
    exact ⟨_, _, _, rfl, rfl, rfl⟩
  obtain ⟨s, hs⟩ : ∃ s, (machine {}).execIf (passes {} (fenced "job")) s₁ ls' =
      some s := by
    cases h₀
    cases h₁
    exact isSome_iff_exists.mp (by decide)
  have hidle : s.pool.worker "w" = .idle := by
    cases h₀
    cases h₁
    cases hs
    rfl
  have hfree : ∀ w, w ≠ "v" → (s₀.pool.worker w).writing ≠ some job.id := by
    rw [hid]
    exact redelivered_free h₀
  have hr₀ := reach_of_exec redeliveredRun h₀
  have hr := reach_of_execIf (fun _ _ => under_of_passes) ls' hs
  refine ⟨s₀, s₁, s, p, job, hr₀, h₁, hid, hr, hidle, ?_⟩
  rw [← hid]
  rw [← hid] at hr
  exact completed_job_fenced hr₀ h₁ hst hfree hr

/-- The lease is gone with the job: the slow worker fails its scan after `v` has cleared
the lease, and puts a completed job back to queued. -/
theorem cleared_lease_not_fenced :
    ∃ s₀ s₁ s p job, (machine {}).Reach anyStep {} s₀ ∧
      s₀.next {} (.work "v" .ok) = some (.worker "v" p (.remote (.hset job)) (.ok ()), s₁) ∧
      (∀ w, w ≠ "v" → (s₀.pool.worker w).writing ≠ some "job") ∧
      (machine {}).Reach anyStep s₁ s ∧
      s₁.pool.store.outcome "job" = (some .completed, some "report") ∧
      s.pool.store.status "job" = some .queued := by
  let ls' : List Label := replicate 6 (.work "v" .ok) ++
    [.work "w" (.stage (.fail { retryable := true, msg := "storage unavailable" } false)),
     .work "w" .ok, .work "w" .ok, .work "w" (.time 1002), .work "w" .ok, .work "w" .ok]
  obtain ⟨s₀, h₀⟩ : ∃ s, (machine {}).exec {} redeliveredRun = some s :=
    isSome_iff_exists.mp (by decide)
  obtain ⟨s₁, p, job, h₁⟩ : ∃ s₁ p job, s₀.next {} (.work "v" .ok) =
      some (.worker "v" p (.remote (.hset job)) (.ok ()), s₁) := by
    cases h₀
    exact ⟨_, _, _, rfl⟩
  obtain ⟨s, hs⟩ : ∃ s, (machine {}).exec s₁ ls' = some s := by
    cases h₀
    cases h₁
    exact isSome_iff_exists.mp (by decide)
  refine ⟨s₀, s₁, s, p, job, reach_of_exec redeliveredRun h₀, h₁, redelivered_free h₀,
    reach_of_exec ls' hs, ?_⟩
  cases h₀
  cases h₁
  cases hs
  exact ⟨rfl, rfl⟩

end Morf.Queue
