import Mathlib.Data.List.Count
import Morf.Queue.Runs

/-! No job is lost: what an active job needs in order to be delivered again, and the
circumstances under which the pipeline keeps it. -/

namespace Morf.Queue

open Morf.Lib
open List Function Option Delivery Store Function

/-- How many entries for `j` on its own processing list a worker is going to give up
whatever happens, when `owner` holds the lease of `j`. -/
def Delivery.reserved (w : WorkerId) (owner : Option WorkerId) (j : JobId) : Delivery → Nat
  | .leased i _ | .scanning i _ | .rechecking i _ | .succeeding i _ | .failing i _
  | .completing i _ => if i = j ∧ taken w (.ok owner) = true then 1 else 0
  | .completed i _ | .requeued i _ | .buried i _ | .dropping i _ => if i = j then 1 else 0
  | .pushed i | .closing i => if i = j then 1 else 0
  | _ => 0

def Delivery.carries (j : JobId) : Delivery → Bool
  | .requeued i _ => i = j
  | _ => false

def Keeps (σ : Store) (w : WorkerId) (p : Delivery) (j : JobId) : Prop :=
  p.reserved w (σ.lease j) j < (σ.processing w).count j

inductive Held (σ : Store) (worker : WorkerId → Delivery) (reaper : Nat → Sweep) (j : JobId) : Prop
  | queued : j ∈ σ.jobQueue → Held σ worker reaper j
  | inHand (n : Nat) : reaper n = .inHand j → Held σ worker reaper j
  | carried (w : WorkerId) : (worker w).carries j = true → Held σ worker reaper j
  | kept (w : WorkerId) : Keeps σ w (worker w) j → Held σ worker reaper j

def Active (σ : Store) (j : JobId) : Prop := ∃ st, σ.status j = some st ∧ st.isActive = true

def NoLoss (v : Pool) : Prop := ∀ j, Active v.store j → Held v.store v.worker v.reaper j

variable {σ : Store} {p : Delivery}

theorem Held.move (h : Held σ worker reaper j)
    (hq : j ∈ σ.jobQueue → j ∈ σ'.jobQueue)
    (ho : ∀ w', w' ≠ w → Keeps σ w' (worker w') j → Keeps σ' w' (worker w') j)
    (hc : (worker w).carries j = true → Held σ' (update worker w p) reaper j)
    (hk : Keeps σ w (worker w) j → Held σ' (update worker w p) reaper j) :
    Held σ' (update worker w p) reaper j := by
  cases h with
  | queued h => exact .queued (hq h)
  | inHand n h => exact .inHand n h
  | carried w' h =>
    by_cases hw : w' = w
    · subst hw
      exact hc h
    · exact .carried w' (by rwa [update_of_ne hw])
  | kept w' h =>
    by_cases hw : w' = w
    · subst hw
      exact hk h
    · exact .kept w' (by rw [update_of_ne hw]; exact ho w' hw h)

theorem Held.shift (h : Held σ worker reaper j) (hq : σ'.jobQueue = σ.jobQueue)
    (hp : σ'.processing = σ.processing) (hl : σ'.lease j = σ.lease j)
    (hc : (worker w).carries j = true → p.carries j = true)
    (hr : p.reserved w (σ.lease j) j ≤ (worker w).reserved w (σ.lease j) j) :
    Held σ' (update worker w p) reaper j := by
  refine h.move (by rw [hq]; exact id) ?_ ?_ ?_
  · intro w' _ hk
    simpa only [Keeps, hp, hl] using hk
  · intro h
    exact .carried w (by rw [update_self]; exact hc h)
  · intro hk
    refine .kept w ?_
    rw [update_self]
    simp only [Keeps, hp, hl] at hk ⊢
    omega

/-- The circumstances under which no job is lost.  A worker must be able to read the job
it has popped and to record that it is processing it; a pushed or requeued id must reach
the queue; and only a worker that still has the job on its processing list may claim it. -/
def prudent (v : Pool) : Action → Bool
  | .worker _ (.popped _) (.remote (.hgetall _)) r => r.isOk
  | .worker w (.read j _) (.remote (.hset _)) r => r.isOk && j ∈ v.store.processing w
  | .worker w (.claimed j _) (.remote (.setLease _ _)) r =>
    if r.isOk then j ∈ v.store.processing w else !taken w (.ok (v.store.lease j))
  | .worker _ (.requeued _ _) (.remote (.rpush _)) r => r.isOk
  | .reaper _ (.inHand _) (.remote (.rpush _)) r => r.isOk
  | .crashReaper n =>
    match v.reaper n with
    | .inHand _ => false
    | .reaping => true
  | .crash w =>
    match v.worker w with
    | .requeued j _ => j ∈ v.store.processing w
    | _ => true
  | _ => true

theorem Active.of_jobs (h : Active σ' j) (hj : σ'.jobs j = σ.jobs j) : Active σ j := by
  simpa only [Active, status, hj] using h

theorem Held.of_mem (hr : p.reserved w (σ.lease j) j = 0) (hj : j ∈ σ.processing w) :
    Held σ (update worker w p) reaper j := by
  refine .kept w ?_
  rw [update_self]
  have := count_pos_iff.mpr hj
  simp only [Keeps, hr]
  omega

theorem NoLoss.quiet {r : Reply c} (hn : NoLoss v) (he : v.store.Exec c r σ) (hq : c.quiet = true)
    (hm : ∀ j, Active v.store j → ((v.worker w).carries j = true → p.carries j = true) ∧
      p.reserved w (v.store.lease j) j ≤ (v.worker w).reserved w (v.store.lease j) j) :
    ∀ j, Active σ j → Held σ (update v.worker w p) v.reaper j := by
  intro j ha
  have hs := he.quiet hq
  have ha := ha.of_jobs (congrFun hs.jobs j)
  exact (hn j ha).shift hs.jobQueue hs.processing (congrFun hs.lease j) (hm j ha).1 (hm j ha).2

theorem taken_lease (h : σ.Exec (.remote (.getLease j)) r σ') (ht : taken w r = true) :
    taken w (.ok (σ.lease j)) = true := by
  obtain ⟨rfl, -⟩ | ⟨⟨m, rfl⟩, -⟩ := h.remote
  · exact ht
  · cases ht

theorem Delivery.reserved_none (o : Option WorkerId) :
    p.reserved w none j ≤ p.reserved w o j := by
  cases p <;> simp [reserved, taken]

theorem NoLoss.write (hn : NoLoss v)
    (hm : ∀ i, i ≠ j → ((v.worker w).carries i = true → p.carries i = true) ∧
      p.reserved w (v.store.lease i) i ≤ (v.worker w).reserved w (v.store.lease i) i)
    (hj : Active (v.store.hsetJob j new) j →
      Held (v.store.hsetJob j new) (update v.worker w p) v.reaper j) :
    ∀ i, Active (v.store.hsetJob j new) i →
      Held (v.store.hsetJob j new) (update v.worker w p) v.reaper i := by
  intro i ha
  by_cases hi : i = j
  · subst hi
    exact hj ha
  · have ha := ha.of_jobs (v.store.hsetJob_of_ne new hi)
    exact (hn i ha).shift rfl rfl rfl (hm i hi).1 (hm i hi).2

theorem not_active_hset {job : ScanJob} (hid : job.id = j) (hs : job.status.isActive = false) :
    ¬Active (σ.hsetJob job.id job.toMap) j := by
  subst hid
  rintro ⟨st, h, ha⟩
  rw [status, hsetJob_self] at h
  cases h
  rw [hs] at ha
  cases ha

theorem NoLoss.ack (hn : NoLoss v) (he : v.store.Exec (.remote (.lrem w j)) r σ)
    (hp : ∀ o i, (v.worker w).carries i = false ∧
      (v.worker w).reserved w o i = if j = i then 1 else 0) :
    ∀ i, Active σ i → Held σ (update v.worker w .idle) v.reaper i := by
  intro i ha
  obtain ⟨-, rfl⟩ | ⟨-, rfl⟩ := he.remote
  · have ha : Active v.store i := ha.of_jobs rfl
    refine (hn i ha).move id ?_ ?_ ?_
    · intro w' hw hk
      simpa [Keeps, apply, hw] using hk
    · simp [(hp none i).1]
    · intro hk
      refine .kept w ?_
      rw [update_self]
      rw [Keeps, (hp _ i).2] at hk
      simp only [Keeps, apply, update_self, count_erase, reserved,
        beq_iff_eq]
      by_cases hji : j = i
      · simp only [hji, if_true] at hk ⊢
        omega
      · simpa only [hji, if_false, Nat.sub_zero] using hk
  · refine (hn i ha).shift rfl rfl rfl (by simp [(hp none i).1]) ?_
    simp [reserved]

theorem NoLoss.pop (hn : NoLoss v) (hw : v.worker w = .idle)
    (he : v.store.Exec (.remote (.blmove w)) (.ok (some j)) σ) :
    ∀ i, Active σ i → Held σ (update v.worker w (.popped j)) v.reaper i := by
  obtain ⟨ha, rfl⟩ := he.ok
  obtain ⟨q, hq, hσ⟩ := blmove_some ha
  rw [hσ]
  intro i ha
  by_cases hi : i = j
  · subst hi
    exact .of_mem rfl (by simp)
  · have ha : Active v.store i := ha.of_jobs rfl
    refine (hn i ha).move ?_ ?_ (by simp [hw, carries]) ?_
    · simp [hq, hi]
    · intro w' hw' hk
      simpa [Keeps, hw'] using hk
    · intro hk
      refine .kept w ?_
      simp only [Keeps, hw, reserved] at hk
      simp only [Keeps, update_self, reserved, count_append]
      omega

theorem NoLoss.lease (hn : NoLoss v) (hw : v.worker w = .claimed j job)
    (hg : prudent v (.worker w (.claimed j job) (.remote (.setLease j w)) r) = true)
    (he : v.store.Exec (.remote (.setLease j w)) r σ) :
    ∀ i, Active σ i → Held σ (update v.worker w (.leased j job)) v.reaper i := by
  obtain ⟨rfl, rfl⟩ | ⟨⟨m, rfl⟩, rfl⟩ := he.remote
  · have hj : j ∈ v.store.processing w := by simpa [prudent, Except.isOk, Except.toBool] using hg
    intro i ha
    by_cases hi : i = j
    · subst hi
      exact .of_mem (by simp [reserved, apply, taken]) hj
    · have ha : Active v.store i := ha.of_jobs rfl
      exact (hn i ha).shift rfl rfl (by simp [apply, hi]) (by simp [hw, carries])
        (by simp [reserved, Ne.symm hi])
  · have ht : taken w (.ok (v.store.lease j)) = false := by
      simpa [prudent, Except.isOk, Except.toBool] using hg
    intro i ha
    refine (hn i ha).shift rfl rfl rfl (by simp [hw, carries]) ?_
    by_cases hi : j = i
    · subst hi
      simp [reserved, ht]
    · simp [reserved, hi]

theorem NoLoss.clear {r : Reply (.remote (.delLease job.id))} (hn : NoLoss v)
    (hw : v.worker w = .completed j job) (hid : job.id = j)
    (he : v.store.Exec (.remote (.delLease job.id)) r σ) :
    ∀ i, Active σ i → Held σ (update v.worker w (.dropping j job)) v.reaper i := by
  subst hid
  intro i ha
  obtain ⟨-, rfl⟩ | ⟨-, rfl⟩ := he.remote
  · have ha : Active v.store i := ha.of_jobs rfl
    by_cases hi : i = job.id
    · subst hi
      refine (hn job.id ha).move id ?_ (by simp [hw, carries]) ?_
      · intro w' _ hk
        have := (v.worker w').reserved_none (w := w') (j := job.id) (v.store.lease job.id)
        simp only [Keeps, apply, update_self] at hk ⊢
        omega
      · intro hk
        refine .kept w ?_
        simpa [Keeps, hw, reserved, apply] using hk
    · exact (hn i ha).shift rfl rfl (by simp [apply, hi]) (by simp [hw, carries])
        (by simp [hw, reserved])
  · exact (hn i ha).shift rfl rfl rfl (by simp [hw, carries])
      (by simp [hw, reserved])

theorem not_active_of_status (hj : σ.jobs j = some h) (hs : h.fromMap.status.isActive = false) :
    ¬Active σ j := by
  rintro ⟨st, h', ha⟩
  simp only [status, hj, bind_some] at h'
  simp only [fromMap_status, h', getD_some] at hs
  rw [hs] at ha
  cases ha

theorem pickUp_reserved (hj : σ.jobs j = some h) (ha : Active σ i) :
    (pickUp j h).reserved w o i = 0 := by
  by_cases hi : j = i
  · subst hi
    unfold pickUp
    split
    case h_1 hs | h_2 hs | h_3 hs => exact (not_active_of_status hj (by rw [hs]; rfl) ha).elim
    all_goals rfl
  · unfold pickUp
    split <;> simp [reserved, hi]

theorem NoLoss.push {u : Unit} (hn : NoLoss v) (hw : v.worker w = .requeued j job)
    (hid : job.id = j) (he : v.store.Exec (.remote (.rpush job.id)) (.ok u) σ) :
    ∀ i, Active σ i → Held σ (update v.worker w (.pushed j)) v.reaper i := by
  subst hid
  obtain ⟨-, rfl⟩ := he.ok
  intro i ha
  have ha : Active v.store i := ha.of_jobs rfl
  by_cases hi : i = job.id
  · exact .queued (by simp [apply, hi])
  · refine (hn i ha).move ?_ (fun _ _ hk => hk) (by simp [hw, carries, Ne.symm hi]) ?_
    · intro h
      simp [apply, h]
    · intro hk
      refine .kept w ?_
      simpa [Keeps, hw, reserved, apply] using hk

theorem NoLoss.deliver {r : Reply c} (hv : Named v) (hn : NoLoss v)
    (hg : prudent v (.worker w (v.worker w) c r) = true) (he : v.store.Exec c r σ)
    (hd : Delivery.Step cfg w (v.worker w) c r p) :
    ∀ j, Active σ j → Held σ (update v.worker w p) v.reaper j := by
  have hid : ∀ {j job}, (v.worker w).copy = some (j, job) → job.id = j := fun h => (hv.copy h).1
  generalize hw : v.worker w = q at hd hg hid
  cases hd with
  | inert hi => exact hn.quiet he (Cmd.quiet_of_inert hi) fun j _ => by simp [hw]
  | pop => exact hn.pop hw he
  | popNone =>
    rw [he.blmove_none]
    exact fun j ha => (hn j ha).shift rfl rfl rfl (by simp [hw]) (by simp [hw])
  | popError =>
    rw [he.error]
    exact fun j ha => (hn j ha).shift rfl rfl rfl (by simp [hw]) (by simp [hw])
  | pickUp =>
    refine hn.quiet he rfl fun i ha => ⟨by simp [hw, carries], ?_⟩
    rw [pickUp_reserved he.ok.1.symm ha]
    exact Nat.zero_le _
  | missing =>
    refine hn.quiet he rfl fun i ha => ⟨by simp [hw, carries], ?_⟩
    rename_i j
    have hj : v.store.jobs j = none := he.ok.1.symm
    have hi : j ≠ i := by
      rintro rfl
      obtain ⟨st, hs, -⟩ := ha
      simp [status, hj] at hs
    simp [reserved, hi]
  | unread | unclaimed | pushError => simp [prudent, Except.isOk, Except.toBool] at hg
  | claim hc =>
    obtain ⟨-, rfl⟩ := he.ok
    have hj := (hc.same.1.trans (hid rfl))
    simp only [prudent, Bool.and_eq_true, decide_eq_true_eq] at hg
    simp only [apply]
    rw [hj]
    refine hn.write (fun i _ => by simp [hw, carries, reserved]) fun _ => ?_
    exact .of_mem rfl hg.2
  | lease => exact hn.lease hw hg he
  | taken ht =>
    refine hn.quiet he rfl fun i _ => ⟨by simp [hw, carries], ?_⟩
    simp only [hw, reserved]
    have := taken_lease he ht
    split
    case isTrue h =>
      subst h
      simp [this]
    case isFalse => exact Nat.zero_le _
  | staleSuccess ht | staleFailure ht | staleMarshal ht =>
    refine hn.quiet he rfl fun i _ => ⟨by simp [hw, carries], ?_⟩
    simp only [hw, reserved]
    have := taken_lease he ht
    rw [hid rfl] at this
    split
    case isTrue h =>
      subst h
      simp [this]
    case isFalse => exact Nat.zero_le _
  | phase =>
    intro i ha
    obtain ⟨-, rfl⟩ | ⟨-, rfl⟩ := he.remote
    · have ha : Active v.store i := by
        simpa only [Active, apply, status_hsetPhase] using ha
      exact (hn i ha).shift rfl rfl rfl (by simp [hw]) (by simp [hw])
    · exact (hn i ha).shift rfl rfl rfl (by simp [hw]) (by simp [hw])
  | abort hs =>
    refine hn.quiet he rfl fun i ha => ⟨by simp [hw, carries], ?_⟩
    rename_i j _ _
    have hi : j ≠ i := by
      rintro rfl
      exact not_active_of_status he.ok.1.symm (by rw [hs]; rfl) ha
    simp [reserved, hi]
  | complete hc | bury hc =>
    obtain ⟨-, rfl⟩ := he.ok
    have hj := hc.same.1.trans (hid rfl)
    have hs := not_active_hset (σ := v.store) hj (by rw [hc.status]; rfl)
    simp only [apply]
    rw [hj] at hs ⊢
    refine hn.write (fun i hi => ?_) fun ha => (hs ha).elim
    simp [hw, carries, reserved, Ne.symm hi]
  | requeue hc =>
    obtain ⟨-, rfl⟩ := he.ok
    have hj := hc.same.1.trans (hid rfl)
    simp only [apply]
    rw [hj]
    refine hn.write (fun i hi => ?_) fun _ => .carried w ?_
    · simp [hw, carries, reserved, Ne.symm hi]
    · simp [carries]
  | completeError | commitError =>
    rw [he.error]
    exact fun j ha => (hn j ha).shift rfl rfl rfl (by simp [hw, carries])
      (by simp [hw, reserved])
  | clear => exact hn.clear hw (hid rfl) he
  | push => exact hn.push hw (hid rfl) he
  | ackDropped | ackPushed | ack =>
    exact hn.ack he fun o i => by simp [hw, carries, reserved]
  | _ => exact hn.quiet he rfl fun j _ => by simp [hw, carries, reserved]

theorem Held.reap (h : Held σ worker reaper j) (hq : j ∈ σ.jobQueue → j ∈ σ'.jobQueue)
    (hk : ∀ w, Keeps σ w (worker w) j → Held σ' worker (update reaper n b) j)
    (hn : reaper n = .inHand j → Held σ' worker (update reaper n b) j) :
    Held σ' worker (update reaper n b) j := by
  cases h with
  | queued h => exact .queued (hq h)
  | carried w h => exact .carried w h
  | kept w h => exact hk w h
  | inHand n' h =>
    by_cases hn' : n' = n
    · subst hn'
      exact hn h
    · exact .inHand n' (by rwa [update_of_ne hn'])

theorem NoLoss.alike (hn : NoLoss v) (hs : v.store.Alike σ) :
    ∀ i, Active σ i → Held σ v.worker v.reaper i := by
  intro i ha
  cases hn i (ha.of_jobs (congrFun hs.jobs i)) with
  | queued h => exact .queued (by rwa [hs.jobQueue])
  | inHand n h => exact .inHand n h
  | carried w h => exact .carried w h
  | kept w h => exact .kept w (by simpa only [Keeps, hs.processing, hs.lease] using h)

theorem NoLoss.take {m : Nat} (hn : NoLoss v) (hr : v.reaper n = .reaping)
    (he : v.store.Exec (.remote (.lrem w j)) (.ok m) σ) :
    ∀ i, Active σ i → Held σ v.worker (update v.reaper n (.inHand j)) i := by
  obtain ⟨-, rfl⟩ := he.ok
  intro i ha
  have ha : Active v.store i := ha.of_jobs rfl
  by_cases hi : i = j
  · exact .inHand n (by rw [update_self, hi])
  · refine (hn i ha).reap id (fun w' hk => .kept w' ?_) (by simp [hr])
    by_cases hw : w' = w
    · subst hw
      simpa [Keeps, apply, count_erase_of_ne hi] using hk
    · simpa [Keeps, apply, hw] using hk

theorem NoLoss.reap {r : Reply c} (hn : NoLoss v)
    (hg : prudent v (.reaper n (v.reaper n) c r) = true) (he : v.store.Exec c r σ)
    (hs : Sweep.Step (v.reaper n) c r b) :
    ∀ i, Active σ i → Held σ v.worker (update v.reaper n b) i := by
  -- all but `take` and `push` leave the lists alone
  have idle : v.store.Alike σ → v.reaper n = .reaping →
      ∀ i, Active σ i → Held σ v.worker (update v.reaper n .reaping) i := by
    intro ht hr
    rw [← hr, update_eq_self]
    exact hn.alike ht
  generalize hr : v.reaper n = q at hs hg
  cases hs with
  | lookup hl =>
    rw [he.lookup hl] at idle ⊢
    exact idle (.refl _) hr
  | take => exact hn.take hr he
  | gone =>
    obtain ⟨h0, rfl⟩ := he.ok
    refine idle ⟨rfl, rfl, ?_, rfl⟩ hr
    rename_i w j
    have hj : j ∉ v.store.processing w := by
      simp only [apply] at h0
      split at h0
      · cases h0
      · assumption
    simp [apply, erase_of_not_mem hj]
  | takeError =>
    rw [he.error] at idle ⊢
    exact idle (.refl _) hr
  | forget => exact idle (he.quiet rfl) hr
  | push =>
    rename_i r
    cases r with
    | error m => simp [prudent, Except.isOk, Except.toBool] at hg
    | ok u =>
      obtain ⟨-, rfl⟩ := he.ok
      intro i ha
      refine (hn i (ha.of_jobs rfl)).reap ?_ (fun w hk => .kept w hk) ?_
      · intro h
        simp [apply, h]
      · intro h
        rw [hr] at h
        cases h
        exact .queued (by simp [apply])

theorem NoLoss.publish (hn : NoLoss v) (job : ScanJob) :
    ∀ i, Active (v.store.publish job) i → Held (v.store.publish job) v.worker v.reaper i := by
  intro i ha
  by_cases hi : i = job.id
  · exact .queued (by simp [hi])
  · have ha := ha.of_jobs (v.store.hsetJob_of_ne _ hi)
    cases hn i ha with
    | queued h => exact .queued (by simp [h])
    | inHand n h => exact .inHand n h
    | carried w h => exact .carried w h
    | kept w h => exact .kept w h

theorem NoLoss.cancel (hn : NoLoss v) (j : JobId) (t : Time) :
    ∀ i, Active (v.store.cancel j t).2 i → Held (v.store.cancel j t).2 v.worker v.reaper i := by
  intro i ha
  obtain ⟨-, h⟩ | ⟨g, -, -, -, hjobs, hqueue, hproc, -, hlease, -⟩ := v.store.cancel_cases j t
  · rw [h] at ha ⊢
    exact hn i ha
  · have hi : i ≠ j := by
      rintro rfl
      obtain ⟨st, hs, hst⟩ := ha
      simp only [status, hjobs, hsetJob_self] at hs
      cases hs
      cases hst
    have ha := ha.of_jobs (σ := v.store) (by rw [hjobs, v.store.hsetJob_of_ne _ hi])
    cases hn i ha with
    | queued h =>
      refine .queued ?_
      rw [hqueue]
      split
      · exact (mem_erase_of_ne hi).mpr h
      · exact h
    | inHand n h => exact .inHand n h
    | carried w h => exact .carried w h
    | kept w h => exact .kept w (by simpa only [Keeps, hproc, hlease] using h)

theorem NoLoss.serve {r : Reply c} (hn : NoLoss v) (he : v.store.Exec c r σ)
    (hs : Request.Step (v.client n) c r b) : ∀ i, Active σ i → Held σ v.worker v.reaper i := by
  generalize v.client n = q at hs
  cases hs with
  | enqueue | resubmit =>
    obtain ⟨-, rfl⟩ | ⟨-, rfl⟩ := he.remote
    · exact hn.publish _
    · exact hn
  | publish | full | publishError | enqueueWithLimit =>
    obtain ⟨-, rfl⟩ | ⟨-, rfl⟩ := he.remote
    · simp only [apply]
      split
      · exact hn
      · exact hn.publish _
    · exact hn
  | cancel =>
    obtain ⟨-, rfl⟩ | ⟨-, rfl⟩ := he.remote
    · exact hn.cancel _ _
    · exact hn
  | _ => exact hn.alike (he.quiet rfl)

theorem resting_free (h : p.resting = true) (o : Option WorkerId) :
    p.carries j = false ∧ p.reserved w o j = 0 := by
  cases p <;> first | exact ⟨rfl, rfl⟩ | cases h

theorem NoLoss.init : NoLoss {} := by
  rintro j ⟨st, hs, -⟩
  cases hs

theorem NoLoss.step (hv : Named v) (hn : NoLoss v) (hg : prudent v a = true)
    (h : Pool.Step cfg v a v') : NoLoss v' := by
  -- a worker takes up another position with nothing to give up
  have settle : ∀ w q, (∀ o i, q.reserved w o i = 0) →
      (∀ i, (v.worker w).carries i = true → i ∈ v.store.processing w) →
      ∀ i, Active v.store i → Held v.store (update v.worker w q) v.reaper i := by
    intro w q hq hc i ha
    refine (hn i ha).move id (fun _ _ hk => hk) (fun h => .of_mem (hq _ _) (hc i h)) fun hk => ?_
    refine .of_mem (hq _ _) (count_pos_iff.mp ?_)
    simp only [Keeps] at hk
    omega
  cases h with
  | worker hl he hd => exact hn.deliver hv hg he hd
  | reaper he hs => exact hn.reap hg he hs
  | client he hs => exact hn.serve he hs
  | start hl =>
    refine settle _ _ (fun _ _ => rfl) fun i h => ?_
    rw [hv.unborn _ hl] at h
    cases h
  | turn hl hr | stop hl hr =>
    refine settle _ _ (fun _ _ => rfl) fun i h => ?_
    rw [(resting_free (w := "") hr none).1] at h
    cases h
  | crash hl =>
    refine settle _ _ (fun _ _ => rfl) fun i h => ?_
    rename_i w
    cases hw : v.worker w with
    | requeued j job =>
      simp only [hw, carries, decide_eq_true_eq] at h
      simpa [prudent, hw, h] using hg
    | _ =>
      rw [hw] at h
      cases h
  | crashReaper =>
    rename_i n
    cases hr : v.reaper n with
    | inHand j => simp [prudent, hr] at hg
    | reaping =>
      rw [← hr, update_eq_self]
      exact hn
  | beat hl => exact hn.alike ⟨rfl, rfl, rfl, rfl⟩
  | expireLease =>
    rename_i j
    intro i ha
    cases hn i ha with
    | queued h => exact .queued h
    | inHand n h => exact .inHand n h
    | carried w h => exact .carried w h
    | kept w h =>
      refine .kept w ?_
      by_cases hi : i = j
      · subst hi
        have := (v.worker w).reserved_none (w := w) (j := i) (v.store.lease i)
        simp only [Keeps, apply, update_self] at h ⊢
        omega
      · simpa [Keeps, apply, hi] using h
  | sweep | submit | crashClient => exact hn

open Fleet

/-- In every run that stays within these circumstances, a job whose hash is queued or
processing is on the queue or on some processing list whenever nobody is in the middle
of an operation. -/
theorem no_job_lost {cfg : Config} {s : Fleet} {j : JobId} {st : JobStatus}
    (h : (machine cfg).Reach (Fleet.Under cfg fun v a => prudent v a = true) {} s)
    (hq : s.Quiet) (hs : s.pool.store.status j = some st) (ha : st = .queued ∨ st = .processing) :
    j ∈ s.pool.store.jobQueue ∨ ∃ w, j ∈ s.pool.store.processing w := by
  have hok : s.Ok cfg := ok_of_reach ok_init h
  have hn : Named s.pool ∧ NoLoss s.pool :=
    invariant_of_reach (I := fun v => Named v ∧ NoLoss v) ok_init
      ⟨Named.init, NoLoss.init⟩ (fun _ _ _ hv hg hs => ⟨hv.1.step hs, hv.2.step hv.1 hg hs⟩) h
  have hact : Active s.pool.store j := ⟨st, hs, by rcases ha with rfl | rfl <;> rfl⟩
  cases hn.2 j hact with
  | queued h => exact .inl h
  | inHand n h =>
    rw [hq.reaping hok n] at h
    cases h
  | carried w h =>
    rw [(resting_free (w := w) (hq.resting hok w) none).1] at h
    cases h
  | kept w h => exact .inr ⟨w, count_pos_iff.mp (Nat.zero_lt_of_lt h)⟩

/-- A worker that crashes right after the pop leaves the job on its processing list. -/
theorem crashed_job_kept :
    ∃ s, (machine {}).Reach (Fleet.Under {} fun v a => prudent v a = true) {} s ∧
      s.Quiet ∧ s.pool.store.status "job" = some .queued ∧
      ("job" ∈ s.pool.store.jobQueue ∨ ∃ w, "job" ∈ s.pool.store.processing w) := by
  let ls := poppedRun ++ [.crash "w"]
  obtain ⟨s, hs⟩ : ∃ s, (machine {}).execIf (passes {} prudent) {} ls = some s :=
    isSome_iff_exists.mp (by decide)
  have he : (machine {}).exec {} ls = some s := hs
  have hr := Machine.reach_of_execIf (fun _ _ => under_of_passes) ls hs
  cases hs
  have hq := quiet_of_exec ls he (by decide) (by decide) (by decide)
  exact ⟨_, hr, hq, rfl, no_job_lost hr hq rfl (.inl rfl)⟩

/-- One failed read is enough: the worker cannot load the job it has popped, and its
deferred acknowledgement removes the last entry of a job that is still queued. -/
theorem unread_job_lost :
    ∃ s, (machine {}).Reach Machine.anyStep {} s ∧ s.Quiet ∧
      s.pool.store.status "job" = some .queued ∧ "job" ∉ s.pool.store.jobQueue ∧
      ∀ w, "job" ∉ s.pool.store.processing w := by
  let ls := poppedRun ++ [.work "w" (.fail "connection refused"), .work "w" .ok]
  obtain ⟨s, hs⟩ : ∃ s, (machine {}).exec {} ls = some s :=
    isSome_iff_exists.mp (by decide)
  have he := hs
  cases hs
  exact ⟨_, Machine.reach_of_exec ls he,
    quiet_of_exec ls he (by decide) (by decide) (by decide), rfl, by decide,
    processing_of_exec ls he (by decide)⟩

end Morf.Queue
