import Mathlib.Logic.Function.Iterate
import Morf.Queue.Lifecycle

/-! `TrimTerminalStatusSets` of `queue/queue.go`: each call looks at one batch of every terminal
status set and removes the members whose job hash has expired. -/

namespace Morf.Queue

open List Function

def terminalJobStatuses : List JobStatus := [.completed, .failed, .cancelled]

structure SetScan where
  batch : (JobId → Bool) → List JobId
  bound : Nat
  length_le : ∀ set, (batch set).length ≤ bound
  mem : ∀ {set j}, j ∈ batch set → set j = true

inductive TrimCmd
  | sscan (st : JobStatus)
  | exists (j : JobId)
  | srem (st : JobStatus) (j : JobId)

def trimBatch (ok : TrimCmd → Bool) (st : JobStatus) : List JobId → Store → Store
  | [], σ => σ
  | j :: js, σ =>
    if ok (.exists j) && (σ.jobs j).isNone && ok (.srem st j) then
      trimBatch ok st js (σ.setStatus st j false)
    else trimBatch ok st js σ

def trimSets (scan : SetScan) (ok : TrimCmd → Bool) : List JobStatus → Store → Bool × Store
  | [], σ => (true, σ)
  | st :: sts, σ =>
    if ok (.sscan st) then
      trimSets scan ok sts (trimBatch ok st (scan.batch (σ.statusSet st)) σ)
    else (false, σ)

def trimTerminalStatusSets (scan : SetScan) (ok : TrimCmd → Bool) (σ : Store) : Bool × Store :=
  trimSets scan ok terminalJobStatuses σ

def sweep (scan : SetScan) (σ : Store) : Store :=
  (trimTerminalStatusSets scan (fun _ => true) σ).2

def Store.Expired (σ : Store) (st : JobStatus) (j : JobId) : Prop :=
  σ.statusSet st j = true ∧ σ.jobs j = none

variable {scan : SetScan} {σ : Store}
theorem trimBatch_jobs : (trimBatch ok st js σ).jobs = σ.jobs := by
  induction js generalizing σ with
  | nil => rfl
  | cons j js ih =>
    rw [trimBatch]
    split
    · rw [ih, Store.setStatus_jobs]
    · exact ih

theorem trimBatch_statusSet_of_ne (h : st' ≠ st) :
    (trimBatch ok st js σ).statusSet st' = σ.statusSet st' := by
  induction js generalizing σ with
  | nil => rfl
  | cons j js ih =>
    rw [trimBatch]
    split
    · rw [ih]
      exact update_of_ne h ..
    · exact ih

theorem Store.setStatus_false_apply :
    (σ.setStatus st i false).statusSet st j = true ↔ σ.statusSet st j = true ∧ j ≠ i := by
  by_cases h : j = i
  · simp [setStatus, h]
  · simp [setStatus, h]

theorem mem_trimBatch : (trimBatch (fun _ => true) st js σ).statusSet st j = true ↔
    σ.statusSet st j = true ∧ ¬ (j ∈ js ∧ σ.jobs j = none) := by
  induction js generalizing σ with
  | nil => simp [trimBatch]
  | cons i js ih =>
    rw [trimBatch]
    split <;> rename_i gone <;> simp only [Bool.true_and, Bool.and_true, Option.isNone_iff_eq_none] at gone
    · rw [ih, Store.setStatus_false_apply, Store.setStatus_jobs]
      by_cases h : j = i
      · simp [h, gone]
      · simp [h]
    · rw [ih]
      by_cases h : j = i
      · simp [h, gone]
      · simp [h]

theorem trimSets_jobs : (trimSets scan ok sts σ).2.jobs = σ.jobs := by
  induction sts generalizing σ with
  | nil => rfl
  | cons st sts ih =>
    rw [trimSets]
    split
    · rw [ih, trimBatch_jobs]
    · rfl

theorem trimSets_statusSet_of_notMem (h : st ∉ sts) :
    (trimSets scan ok sts σ).2.statusSet st = σ.statusSet st := by
  induction sts generalizing σ with
  | nil => rfl
  | cons st' sts ih =>
    rw [trimSets]
    split
    · rw [ih (not_mem_of_not_mem_cons h),
        trimBatch_statusSet_of_ne (ne_of_not_mem_cons h)]
    · rfl

theorem mem_trimSets (nodup : sts.Nodup) (h : st ∈ sts) :
    (trimSets scan (fun _ => true) sts σ).2.statusSet st j = true ↔
      σ.statusSet st j = true ∧ ¬ (j ∈ scan.batch (σ.statusSet st) ∧ σ.jobs j = none) := by
  induction sts generalizing σ with
  | nil => cases h
  | cons st' sts ih =>
    obtain ⟨notMem, nodup⟩ := nodup_cons.mp nodup
    rw [trimSets, if_pos rfl]
    rcases mem_cons.mp h with rfl | mem
    · rw [trimSets_statusSet_of_notMem notMem, mem_trimBatch]
    · have ne : st ≠ st' := fun e => notMem (e ▸ mem)
      rw [ih nodup mem, trimBatch_statusSet_of_ne ne, trimBatch_jobs]

theorem sweep_jobs : (sweep scan σ).jobs = σ.jobs := trimSets_jobs

theorem mem_sweep (terminal : st ∈ terminalJobStatuses) :
    (sweep scan σ).statusSet st j = true ↔
      σ.statusSet st j = true ∧ ¬ (j ∈ scan.batch (σ.statusSet st) ∧ σ.jobs j = none) :=
  mem_trimSets (by decide) terminal

theorem sweep_eq_iff (terminal : st ∈ terminalJobStatuses) :
    (sweep scan σ).statusSet st = σ.statusSet st ↔
      ∀ j ∈ scan.batch (σ.statusSet st), σ.jobs j ≠ none := by
  constructor
  · intro same j batch gone
    have kept : (sweep scan σ).statusSet st j = true := same ▸ scan.mem batch
    exact ((mem_sweep terminal).mp kept).2 ⟨batch, gone⟩
  · intro live
    funext j
    rw [Bool.eq_iff_iff, mem_sweep terminal]
    exact and_iff_left fun ⟨batch, gone⟩ => live j batch gone

theorem sweep_iterate_eq (terminal : st ∈ terminalJobStatuses)
    (live : ∀ j ∈ scan.batch (σ.statusSet st), σ.jobs j ≠ none) (n : Nat) :
    ((sweep scan)^[n] σ).statusSet st = σ.statusSet st := by
  induction n generalizing σ with
  | zero => rfl
  | succ n ih =>
    have same := (sweep_eq_iff terminal).mpr live
    rw [iterate_succ_apply, ih (by rwa [same, sweep_jobs]), same]

def SetScan.inOrder (table : List JobId) (count : Nat) : SetScan where
  batch set := (table.filter set).take count
  bound := count
  length_le _ := List.length_take_le ..
  mem h := (List.mem_filter.mp (List.mem_of_mem_take h)).2

theorem SetScan.batch_inOrder_append {set : JobId → Bool} (h : ∀ j ∈ live, set j = true) :
    (inOrder (live ++ rest) live.length).batch set = live := by
  simp [inOrder, filter_append, filter_eq_self.mpr h]

def Store.completedJobs (live expired : List JobId) : Store where
  jobs j := if j ∈ live then some {} else none
  statusSet st j := st = .completed ∧ j ∈ live ++ expired

/-- A call that removes nothing shows that nothing has expired, exactly when the batch of a set
with expired members holds one of them. -/
theorem sweep_idle_clean_iff (scan : SetScan) (σ : Store) (st : JobStatus)
    (terminal : st ∈ terminalJobStatuses) :
    ((sweep scan σ).statusSet st = σ.statusSet st → ∀ j, ¬ σ.Expired st j) ↔
      ((∃ j, σ.Expired st j) → ∃ j ∈ scan.batch (σ.statusSet st), σ.Expired st j) := by
  rw [sweep_eq_iff terminal]
  constructor
  · rintro idle ⟨j, expired⟩
    by_contra none
    refine idle (fun i batch gone => none ⟨i, batch, scan.mem batch, gone⟩) j expired
  · rintro reached live j expired
    obtain ⟨i, batch, -, gone⟩ := reached ⟨j, expired⟩
    exact live i batch gone

theorem dangling_idle_clean :
    JobStatus.completed ∈ terminalJobStatuses ∧
      ((sweep (.inOrder ["live", "dangling"] 256) (.completedJobs ["live"] ["dangling"])).statusSet
          .completed = (Store.completedJobs ["live"] ["dangling"]).statusSet .completed →
        ∀ j, ¬ (Store.completedJobs ["live"] ["dangling"]).Expired .completed j) :=
  ⟨by decide, (sweep_idle_clean_iff _ _ _ (by decide)).mpr fun _ =>
    ⟨"dangling", by decide, by decide, by decide⟩⟩

/-- 256 live jobs in front of an expired one: it stays, whatever the number of calls. -/
theorem expired_behind_live_never_trimmed :
    ∃ (scan : SetScan) (σ : Store), scan.bound = 256 ∧
      (∀ n, ((sweep scan)^[n] σ).statusSet .completed = σ.statusSet .completed) ∧
      ∃ j, σ.Expired .completed j := by
  let live := (List.range 256).map fun n => "job-" ++ toString n
  have fresh : "expired" ∉ live := by
    intro mem
    obtain ⟨n, -, e⟩ := mem_map.mp mem
    have heads := congrArg (·.toList.head?) e
    simp at heads
  have batch : (SetScan.inOrder (live ++ ["expired"]) live.length).batch
      ((Store.completedJobs live ["expired"]).statusSet .completed) = live :=
    SetScan.batch_inOrder_append fun j mem => by simp [Store.completedJobs, mem]
  refine ⟨.inOrder (live ++ ["expired"]) live.length, .completedJobs live ["expired"], ?_,
    sweep_iterate_eq (by decide) ?_, "expired", ?_, ?_⟩
  · simp [SetScan.inOrder, live]
  · rw [batch]
    intro j mem
    simp [Store.completedJobs, mem]
  · simp [Store.completedJobs]
  · simp [Store.completedJobs, fresh]

end Morf.Queue
