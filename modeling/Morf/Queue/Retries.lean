import Morf.Lib.Tally
import Morf.Queue.Store

/-! Several calls of `RetryDLQJob` for one job at the same time. -/

namespace Morf.Queue

open Morf.Lib
open List Function

inductive Retrying
  | start
  | removed
  | loaded (job : ScanJob)
  | done (res : Except QueueError Unit)

namespace Retrying

def reload (j : JobId) : Op (Except QueueError Unit) := do
  match ← getJob j with
  | .error e => return .error (.text ("failed to get job: " ++ e.msg))
  | .ok job =>
    match ← enqueueJobAtomic job.resubmitted with
    | .error e => return .error (.text ("failed to re-enqueue job: " ++ e.msg))
    | .ok _ => return .ok ()

def prog (j : JobId) : Retrying → Op (Except QueueError Unit)
  | .start => retryDLQJob j
  | .removed => reload j
  | .loaded job => do
    match ← enqueueJobAtomic job.resubmitted with
    | .error e => return .error (.text ("failed to re-enqueue job: " ++ e.msg))
    | .ok _ => return .ok ()
  | .done res => return res

def failed (what : String) (e : QueueError) : Retrying := .done (.error (.text (what ++ e.msg)))

def next (j : JobId) : Retrying → (c : Cmd) → Reply c → Retrying
  | .start, .remote (.retryDLQRemoveScript _), .error e =>
    failed "failed to remove from DLQ: " (.text e)
  | .start, .remote (.retryDLQRemoveScript _), .ok b =>
    if b then .removed else failed "job not found in DLQ: " (.text j)
  | .removed, .remote (.hgetall _), .error e =>
    failed "failed to get job: " (.text ("failed to get job: " ++ e))
  | .removed, .remote (.hgetall _), .ok none =>
    failed "failed to get job: " (.text ("job not found: " ++ j))
  | .removed, .remote (.hgetall _), .ok (some h) => .loaded h.fromMap
  | .loaded _, .remote (.enqueueScript _), .error e =>
    failed "failed to re-enqueue job: " (.text ("failed to atomically enqueue job: " ++ e))
  | .loaded _, .remote (.enqueueScript _), .ok _ => .done (.ok ())
  | m, _, _ => m

theorem law {k : Reply c → Op (Except QueueError Unit)} (h : prog j m = .call c k) (r : Reply c) :
    k r = prog j (next j m c r) := by
  cases m with
  | start =>
    cases h
    rcases r with e | _ | _ <;> rfl
  | removed =>
    cases h
    rcases r with e | _ | h <;> rfl
  | loaded job =>
    cases h
    cases r <;> rfl
  | done res => cases h

end Retrying

open Retrying

def retryScript (j : JobId) : Script Cmd Reply (Except QueueError Unit) Retrying where
  prog := prog j
  next := next j
  law := law

def midway {α : Type} : Op α → Bool
  | .ret _ => false
  | .call (.remote (.retryDLQRemoveScript _)) _ => false
  | .call _ _ => true

namespace Retrying

def holds : Retrying → Nat
  | .removed | .loaded _ => 1
  | .start | .done _ => 0

theorem midway_prog : midway (prog j m) = true ↔ m.holds = 1 := by
  cases m <;> simp [prog, holds] <;> rfl

inductive Step (j : JobId) (σ : Store) : Bool → Retrying → Retrying → Store → Prop
  | refuse : Step j σ false .start (.done (.error e)) σ
  | remove : j ∈ σ.dlq → Step j σ false .start .removed { σ with dlq := σ.dlq.erase j }
  | load : σ.jobs j = some h → Step j σ false .removed (.loaded h.fromMap) σ
  | push : Step j σ false (.loaded job) (.done (.ok ())) (σ.publish job.resubmitted)
  | lose : m.holds = 1 → Step j σ true m (.done (.error e)) σ

def Steady (j : JobId) (σ : Store) (m : Retrying) (e : Env) : Prop :=
  m.holds = 1 → (∀ msg, e ≠ .fail msg) ∧ (σ.jobs j).isSome = true

theorem step_of_exec {k : Reply c → Op (Except QueueError Unit)} {r : Reply c}
    (hm : ∀ job, m = .loaded job → (σ.jobs j).isSome = true) (hp : prog j m = .call c k)
    (h : σ.exec c e = some (r, σ')) :
    ∃ lost, Step j σ lost m (next j m c r) σ' ∧ (lost = false ↔ Steady j σ m e) := by
  cases m with
  | start =>
    cases hp
    refine ⟨false, ?_, iff_of_true rfl (by simp [Steady, holds])⟩
    cases e with
    | ok =>
      cases h
      by_cases hj : j ∈ σ.dlq
      · simpa [Store.apply, hj, next] using .remove hj
      · simpa [Store.apply, hj, next, erase_of_not_mem hj] using .refuse
    | fail msg =>
      cases h
      exact .refuse
    | _ => cases h
  | removed =>
    cases hp
    cases e with
    | ok =>
      cases h
      cases hj : σ.jobs j with
      | none => exact ⟨true, by simpa [Store.apply, hj, next] using .lose rfl, by simp [Steady, holds, hj]⟩
      | some h =>
        exact ⟨false, by simpa [Store.apply, hj, next] using .load hj, by simp [Steady, holds, hj]⟩
    | fail msg =>
      cases h
      exact ⟨true, .lose rfl, by simp [Steady, holds]⟩
    | _ => cases h
  | loaded job =>
    cases hp
    cases e with
    | ok =>
      cases h
      exact ⟨false, .push, by simp [Steady, holds, hm job rfl]⟩
    | fail msg =>
      cases h
      exact ⟨true, .lose rfl, by simp [Steady, holds]⟩
    | _ => cases h
  | done res => cases hp

structure Sound {n : Nat} (j : JobId) (σ : Store) (m : Fin n → Retrying) : Prop where
  once : σ.dlq.count j + σ.jobQueue.count j + ∑ i, (m i).holds = 1
  named : ∀ h, σ.jobs j = some h → h.id = some j
  loaded : ∀ i job, m i = .loaded job → job.id = j ∧ (σ.jobs j).isSome = true

theorem Step.balance (h : Step j σ false (m i) p σ') (hs : Sound j σ m) :
    σ'.dlq.count j + σ'.jobQueue.count j + p.holds =
      σ.dlq.count j + σ.jobQueue.count j + (m i).holds := by
  generalize hm : m i = m₀ at h
  cases h with
  | refuse => rfl
  | remove hj =>
    have hpos : 0 < σ.dlq.count j := count_pos_iff.mpr hj
    simp only [holds, count_erase_self]
    omega
  | load => rfl
  | @push job =>
    have hj : job.resubmitted.id = j := (hs.loaded i job hm).1
    simp [holds, hj]
    omega

theorem Step.jobs (h : Step j σ false (m i) p σ') (hs : Sound j σ m) :
    (∀ h, σ'.jobs j = some h → h.id = some j) ∧
      ((σ.jobs j).isSome = true → (σ'.jobs j).isSome = true) := by
  generalize hm : m i = m₀ at h
  cases h with
  | refuse | remove | load => exact ⟨hs.named, id⟩
  | @push job =>
    obtain rfl : job.resubmitted.id = j := (hs.loaded i job hm).1
    simp [Store.hsetJob_self]

theorem Step.sound (h : Step j σ false (m i) p σ') (hs : Sound j σ m) :
    Sound j σ' (Function.update m i p) where
  once := by
    have hsum := Tally.sum_apply_update holds m i p
    have hbal := h.balance hs
    have hone := hs.once
    omega
  named := (h.jobs hs).1
  loaded i' job hi' := by
    by_cases hi : i' = i
    · subst hi
      rw [update_self] at hi'
      subst hi'
      generalize hm : m i' = m₀ at h
      cases h with
      | load hj => simp [hs.named _ hj, hj]
    · rw [update_of_ne hi] at hi'
      obtain ⟨hid, hsome⟩ := hs.loaded i' job hi'
      exact ⟨hid, (h.jobs hs).2 hsome⟩

end Retrying

/-- A call that has failed leaves the id on one of the two lists, once no call is in the middle of
its commands; and the id is never twice on the queue. -/
structure AllOrNothing {n : Nat} (j : JobId)
    (s : Crew Store Cmd Reply (Fin n) (Except QueueError Unit)) : Prop where
  kept : (∀ i, midway (s.prog i) = false) → ∀ i e, s.prog i = .ret (.error e) →
    j ∈ s.store.dlq ∨ j ∈ s.store.jobQueue
  once : s.store.jobQueue.count j ≤ 1

theorem Retrying.midway_eq_false {m : Retrying} :
    midway (m.prog j) = false ↔ m.holds = 0 := by
  rw [← Bool.not_eq_true, midway_prog]
  cases m <;> simp [holds]

theorem Retrying.Sound.allOrNothing (hs : Retrying.Sound j σ m) :
    AllOrNothing j ((retryScript j).crew σ m) where
  kept hmid i e _ := by
    show j ∈ σ.dlq ∨ j ∈ σ.jobQueue
    have hzero : ∀ i, (m i).holds = 0 := fun i => midway_eq_false.mp (hmid i)
    have hone := hs.once
    simp only [hzero, Finset.sum_const_zero] at hone
    by_cases hd : j ∈ σ.dlq
    · exact .inl hd
    · have hd' : σ.dlq.count j = 0 := count_eq_zero.mpr hd
      exact .inr (count_pos_iff.mp (by omega))
  once := by
    have hone := hs.once
    show σ.jobQueue.count j ≤ 1
    omega

theorem Retrying.Step.not_allOrNothing (h : Retrying.Step j σ true (m i) p σ')
    (hs : Retrying.Sound j σ m) :
    ¬ AllOrNothing j ((retryScript j).crew σ' (Function.update m i p)) := by
  intro ha
  generalize hm : m i = m₀ at h
  cases h with
  | @lose _ e hh =>
    -- the one hand that held the id is empty now
    have hone := hs.once
    have hsum := Tally.sum_apply_update holds m i (.done (.error e))
    rw [hm, hh] at hsum
    have hdone : (done (.error e)).holds = 0 := rfl
    have hzero : ∀ x, (Function.update m i (.done (.error e)) x).holds = 0 := by
      have hall : ∑ x, (Function.update m i (.done (.error e)) x).holds = 0 := by omega
      exact fun x => Finset.sum_eq_zero_iff.mp hall x (Finset.mem_univ x)
    have hret : prog j (Function.update m i (.done (.error e)) i) = .ret (.error e) := by
      rw [update_self]
      rfl
    rcases ha.kept (fun x => midway_eq_false.mpr (hzero x)) i e hret with hd | hq
    · have hpos : 0 < σ.dlq.count j := count_pos_iff.mpr hd
      omega
    · have hpos : 0 < σ.jobQueue.count j := count_pos_iff.mpr hq
      omega

def Unbroken {n : Nat} (j : JobId) (s : Crew Store Cmd Reply (Fin n) (Except QueueError Unit))
    (l : Fin n × Env) : Prop :=
  midway (s.prog l.1) = true → (∀ msg, l.2 ≠ .fail msg) ∧ (s.store.jobs j).isSome = true

/-- The calls are all or nothing along a run exactly if no call that has the id in hand meets an error
or finds the hash gone. -/
theorem retry_all_or_nothing_iff (n : Nat) (j : JobId) (σ₀ : Store) (hdlq : σ₀.dlq.count j = 1)
    (hqueue : j ∉ σ₀.jobQueue) (hnamed : ∀ h, σ₀.jobs j = some h → h.id = some j)
    (run : List (Fin n × Env)) :
    (Crew.machine Store.exec ⟨σ₀, fun _ => retryDLQJob j⟩).Along (fun _ _ t => AllOrNothing j t)
        ⟨σ₀, fun _ => retryDLQJob j⟩ run ↔
      (Crew.machine Store.exec ⟨σ₀, fun _ => retryDLQJob j⟩).Along
        (fun s l _ => Unbroken j s l) ⟨σ₀, fun _ => retryDLQJob j⟩ run := by
  have h0 : Retrying.Sound j σ₀ (fun _ : Fin n => .start) :=
    ⟨by simp [hdlq, count_eq_zero.mpr hqueue, holds], hnamed, fun i job h => by cases h⟩
  let I (s : Crew Store Cmd Reply (Fin n) (Except QueueError Unit)) : Prop :=
    ∃ σ m, s = (retryScript j).crew σ m ∧ Retrying.Sound j σ m
  have hstep : ∀ s l t, I s → Crew.step Store.exec s l = some t →
      (I t ∧ AllOrNothing j t ∧ Unbroken j s l) ∨ (¬ AllOrNothing j t ∧ ¬ Unbroken j s l) := by
    rintro _ ⟨i, e⟩ t ⟨σ, m, rfl, hs⟩ ht
    obtain ⟨c, k, r, σ', hp, he, rfl⟩ := Script.crew_step ht
    obtain ⟨lost, hl, hiff⟩ := step_of_exec (fun job hj => (hs.loaded i job hj).2) hp he
    have hmid : Unbroken j ((retryScript j).crew σ m) (i, e) ↔ Retrying.Steady j σ (m i) e :=
      imp_congr_left midway_prog
    cases lost with
    | false =>
      have ht : Retrying.Sound j σ' _ := hl.sound hs
      exact .inl ⟨⟨σ', _, rfl, ht⟩, ht.allOrNothing, hmid.mpr (hiff.mp rfl)⟩
    | true => exact .inr ⟨hl.not_allOrNothing hs, fun h => by simpa using hiff.mpr (hmid.mp h)⟩
  refine Machine.along_iff (I := I) (fun s l t hs ht => ?_) (fun s l t hs ht hq => ?_) run
    ⟨σ₀, _, rfl, h0⟩
  · rcases hstep s l t hs ht with ⟨-, ha, hq⟩ | ⟨ha, hq⟩
    · exact iff_of_true ha hq
    · exact iff_of_false ha hq
  · rcases hstep s l t hs ht with ⟨hI, -⟩ | ⟨-, hq'⟩
    · exact hI
    · exact absurd hq hq'

def buriedStore : Store where
  jobs j := if j = "job" then some { id := some "job", status := some .failed } else none
  dlq := ["job"]

/-- Two calls, the second of which finds the dead-letter list empty while the first has the id. -/
theorem second_retry_finds_nothing :
    (buriedStore.dlq.count "job" = 1 ∧ "job" ∉ buriedStore.jobQueue) ∧
      (Crew.machine Store.exec ⟨buriedStore, fun _ => retryDLQJob "job"⟩).Along
        (fun _ _ t => AllOrNothing "job" t) ⟨buriedStore, fun _ => retryDLQJob "job"⟩
        [((0 : Fin 2), .ok), (1, .ok), (0, .ok), (0, .ok)] := by
  refine ⟨by decide, (retry_all_or_nothing_iff 2 "job" buriedStore (by decide) (by decide)
    (fun h hh => by cases hh; rfl) _).mpr ?_⟩
  intro t ht
  cases ht
  refine ⟨fun h => (by cases h), fun t ht => ?_⟩
  cases ht
  refine ⟨fun h => (by cases h), fun t ht => ?_⟩
  cases ht
  refine ⟨fun _ => ⟨fun _ h => (by cases h), rfl⟩, fun t ht => ?_⟩
  cases ht
  exact ⟨fun _ => ⟨fun _ h => (by cases h), rfl⟩, trivial⟩

/-- The hash cannot be read after the id has been taken off the dead-letter list: the call fails, and
the id is on no list. -/
theorem failed_reload_loses_id :
    ∃ s e, (Crew.machine Store.exec ⟨buriedStore, fun _ => retryDLQJob "job"⟩).exec
        ⟨buriedStore, fun _ => retryDLQJob "job"⟩ [((0 : Fin 1), .ok), (0, .fail "i/o timeout")] =
          some s ∧
      (∀ i, s.prog i = .ret (.error e)) ∧ "job" ∉ s.store.dlq ∧ "job" ∉ s.store.jobQueue := by
  refine ⟨_, .text "failed to get job: failed to get job: i/o timeout", rfl, fun i => ?_, by decide,
    by decide⟩
  obtain rfl : i = 0 := Subsingleton.elim i 0
  rfl

end Morf.Queue
