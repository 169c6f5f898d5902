import Mathlib.Data.List.Count
import Morf.Lib.Tally
import Morf.Queue.Runs

/-! Custody: as long as no sweep interferes, a job is in one place at a time, on the
queue, with the worker that processes it or with the request that publishes it. -/

namespace Morf.Queue

open Morf.Lib
open List Function Action Store Nat

def Delivery.holds (cfg : Config) (j : JobId) : Delivery → Nat
  | .popped i => if i = j then 1 else 0
  | .read i _ | .claimed i _ | .leased i _ | .scanning i _ | .rechecking i _ | .succeeding i _
  | .failing i _ | .completing i _ | .committed i _ | .completed i _ | .requeued i _
  | .buried i _ => if i = j then 1 else 0
  | .dropping i job => if i = j ∧ noArtifact cfg job = false then 1 else 0
  | _ => 0

def Request.holds (j : JobId) : Request → Nat
  | .uploading job | .stored job | .undoing job | .enqueuing job | .resubmitting job =>
    if job.id = j then 1 else 0
  | .removed i => if i = j then 1 else 0
  | _ => 0

def Store.load (dlq : Bool) (σ : Store) (j : JobId) : Nat :=
  σ.jobQueue.count j + if dlq then σ.dlq.count j else 0

def tokens (cfg : Config) (dlq : Bool) (v : Pool) (F : Finset WorkerId) (G : Finset Nat)
    (j : JobId) : Nat :=
  v.store.load dlq j + ∑ w ∈ F, (v.worker w).holds cfg j + ∑ n ∈ G, (v.client n).holds j

def Action.issues (j : JobId) : Action → Nat
  | .submit _ p => (p.publishes.map (·.id)).count j
  | _ => 0

def Action.frees (j : JobId) : Action → Nat
  | .worker _ (.dropping i _) (.remote (.delete _)) _ => if i = j then 1 else 0
  | .client _ (.undoing job) _ _ => if job.id = j then 1 else 0
  | _ => 0

/-- No sweep pushes a job, and the dead-letter list is either part of the account, and
then a job whose artifact is going to be deleted does not get there, or nothing is taken
from it. -/
def orderly (cfg : Config) (dlq : Bool) : Action → Bool
  | .reaper _ _ (.remote (.rpush _)) _ => false
  | .worker _ (.buried _ job) (.remote (.moveToDLQScript _)) _ => !dlq || noArtifact cfg job
  | .client _ _ (.remote (.retryDLQRemoveScript _)) _ => dlq
  | _ => true

def Exclusive (cfg : Config) (dlq : Bool) (v : Pool) : Prop :=
  ∀ j F G, tokens cfg dlq v F G j ≤ (v.issued.map (·.id)).count j

variable {dlq : Bool} {c : Cmd} {σ σ' : Store}

def Cmd.keepsQueues : Cmd → Bool
  | .remote (.blmove _) | .remote (.rpush _) | .remote (.enqueueScript _) => false
  | .remote (.enqueueWithLimitScript _ _ _) | .remote (.cancelJobScript _ _) => false
  | .remote (.moveToDLQScript _) | .remote (.retryDLQRemoveScript _) => false
  | _ => true

theorem Cmd.keepsQueues_of_inert (h : c.inert = true) : c.keepsQueues = true := by
  cases c with
  | remote c => cases c <;> first | rfl | cases h
  | _ => rfl

theorem Store.Exec.load (h : σ.Exec c r σ') (hc : c.keepsQueues = true) :
    σ'.load dlq j = σ.load dlq j := by
  cases h.effect with
  | ok c => cases c <;> first | rfl | cases hc
  | _ => rfl

theorem Store.load_publish (σ : Store) (job : ScanJob) :
    (σ.publish job).load dlq j = σ.load dlq j + if job.id = j then 1 else 0 := by
  simp [load, count_singleton, add_right_comm]

theorem Store.load_cancel (σ : Store) (i : JobId) (t : Time) :
    (σ.cancel i t).2.load dlq j ≤ σ.load dlq j := by
  obtain ⟨-, h⟩ | ⟨g, -, -, -, -, hq, -, hd, -⟩ := σ.cancel_cases i t
  · rw [h]
  · simp only [load, hq, hd]
    split
    · have := Sublist.count_le j (erase_sublist (a := i) (l := σ.jobQueue))
      omega
    · exact le_refl _

theorem Action.frees_of_inert (h : c.inert = true) : (worker w p c r).frees j = 0 := by
  unfold frees
  split
  · rename_i heq
    cases heq
    cases h
  · rename_i heq
    cases heq
  · rfl

theorem Delivery.Step.holds (hv : Named v) (he : v.store.Exec c r σ)
    (hd : Delivery.Step cfg w (v.worker w) c r p)
    (hg : orderly cfg dlq (.worker w (v.worker w) c r) = true) (j : JobId) :
    σ.load dlq j + p.holds cfg j + (worker w (v.worker w) c r).frees j ≤
      v.store.load dlq j + (v.worker w).holds cfg j := by
  have hid : ∀ {i job}, (v.worker w).copy = some (i, job) → job.id = i :=
    fun h => (hv.copy h).1
  generalize v.worker w = q at hd hg hid
  have still : c.keepsQueues = true → p.holds cfg j + (worker w q c r).frees j ≤
      q.holds cfg j → σ.load dlq j + p.holds cfg j + (worker w q c r).frees j ≤
      v.store.load dlq j + q.holds cfg j := by
    intro hk hle
    rw [he.load hk]
    omega
  cases hd with
  | inert hi =>
    refine still (Cmd.keepsQueues_of_inert hi) ?_
    rw [frees_of_inert hi]
    exact le_refl _
  | pop =>
    rename_i i
    obtain ⟨ha, rfl⟩ := he.ok
    obtain ⟨q, hq, hσ⟩ := blmove_some ha
    rw [hσ]
    simp only [load, hq, Delivery.holds, frees, count_cons, beq_iff_eq]
    omega
  | popNone =>
    rw [he.blmove_none]
    exact le_refl _
  | popError | pushError =>
    rw [he.error]
    exact le_add_right _ _
  | push =>
    rename_i i job u
    obtain rfl := hid rfl
    obtain ⟨-, rfl⟩ := he.ok
    have : load dlq (v.store.apply (.rpush job.id)).2 j =
        load dlq v.store j + if job.id = j then 1 else 0 := by
      simp [load, apply, count_singleton, add_right_comm]
    rw [this]
    exact le_refl _
  | deadLetter =>
    rename_i i job r
    obtain rfl := hid rfl
    simp only [orderly, Bool.or_eq_true, Bool.not_eq_true'] at hg
    simp only [Delivery.holds, frees]
    obtain ⟨-, rfl⟩ | ⟨-, rfl⟩ := he.remote
    · simp only [load, apply, count_cons, beq_iff_eq]
      rcases hg with hg | hg <;> simp only [hg]
      · split <;> split <;> simp_all
      · split <;> split <;> simp_all
        all_goals omega
    · split <;> split <;> simp_all
  | pickUp =>
    refine still rfl ?_
    unfold Queue.pickUp
    split
    · exact zero_le _
    · exact zero_le _
    · simp only [Delivery.holds, frees]
      split <;> split <;> simp_all
    all_goals exact le_refl _
  | drop hn =>
    refine still rfl ?_
    simp [Delivery.holds, frees, hn]
  | _ =>
    refine still rfl ?_
    first
    | exact zero_le _
    | exact le_refl _
    | simp only [Delivery.holds, frees]
      split <;> simp_all

theorem Request.Step.holds (hv : Named v) (he : v.store.Exec c r σ)
    (hs : Request.Step (v.client n) c r p)
    (hg : orderly cfg dlq (.client n (v.client n) c r) = true) (j : JobId) :
    σ.load dlq j + p.holds j + (client n (v.client n) c r).frees j ≤
      v.store.load dlq j + (v.client n).holds j := by
  generalize v.client n = q at hs hg
  cases hs with
  | publish | enqueueWithLimit =>
    obtain ⟨hr, rfl⟩ | ⟨⟨m, hr⟩, rfl⟩ := he.remote
    · simp only [apply] at hr ⊢
      split
      · exact Nat.add_le_add_left (Nat.zero_le _) _
      · rw [load_publish]
        exact Nat.le_refl _
    · exact Nat.add_le_add_left (Nat.zero_le _) _
  | full =>
    rw [he.refused]
    exact Nat.le_refl _
  | publishError =>
    rw [he.error]
    exact le_refl _
  | enqueue | resubmit =>
    obtain ⟨-, rfl⟩ | ⟨-, rfl⟩ := he.remote
    · rw [apply, load_publish]
      exact Nat.le_refl _
    · exact Nat.add_le_add_left (Nat.zero_le _) _
  | cancel =>
    obtain ⟨-, rfl⟩ | ⟨-, rfl⟩ := he.remote
    · exact load_cancel ..
    · exact le_refl _
  | remove =>
    rename_i i
    obtain ⟨hr, rfl⟩ := he.ok
    have hi : i ∈ v.store.dlq := by simpa [apply] using hr
    have hd : dlq = true := hg
    have hpos := count_pos_iff.mpr hi
    simp only [load, apply, Request.holds, frees, hd, if_true,
      count_erase, beq_iff_eq]
    split
    · subst ‹i = j›
      omega
    · omega
  | absent =>
    rename_i i
    obtain ⟨-, rfl⟩ := he.ok
    have hle := Sublist.count_le j (erase_sublist (a := i) (l := v.store.dlq))
    simp only [load, apply, Request.holds, frees]
    split
    · omega
    · omega
  | removeError =>
    rw [he.error]
    exact le_refl _
  | reread =>
    rename_i i h
    have hh : v.store.jobs i = some h := he.ok.1.symm
    rw [he.load rfl]
    simp [Request.holds, frees, hv.resubmitted_id hh]
  | undo =>
    rw [he.load rfl]
    exact le_refl _
  | _ =>
    rw [he.load rfl]
    first
    | exact Nat.le_refl _
    | exact Nat.add_le_add_left (Nat.zero_le _) _

theorem tokens_worker (F : Finset WorkerId) (G : Finset Nat)
    (h : x + p.holds cfg j ≤ v.store.load dlq j + (v.worker w).holds cfg j) :
    x + ∑ k ∈ F, (Function.update v.worker w p k).holds cfg j + ∑ k ∈ G, (v.client k).holds j ≤
      tokens cfg dlq v (insert w F) G j := by
  simp only [apply_update (fun _ => Delivery.holds cfg j)]
  exact Nat.add_le_add_right (Tally.sum_update_balance F h) _

theorem tokens_client (cfg : Config) (F : Finset WorkerId) (G : Finset Nat)
    (h : x + p.holds j ≤ v.store.load dlq j + y + (v.client n).holds j) :
    x + ∑ k ∈ F, (v.worker k).holds cfg j + ∑ k ∈ G, (Function.update v.client n p k).holds j ≤
      tokens cfg dlq v F (insert n G) j + y := by
  simp only [apply_update (fun _ => Request.holds j)]
  have := Tally.sum_update_balance (f := fun k => (v.client k).holds j) G h
  simp only [tokens]
  omega

theorem Request.holds_le_publishes {p : Request} (h : p.opening = true) :
    p.holds j ≤ (p.publishes.map (·.id)).count j := by
  cases p with
  | uploading job | enqueuing job => simp [holds, publishes, count_singleton]
  | cancelling i | retrying i => exact zero_le _
  | _ => cases h

/-- No step makes a second token of a job. -/
theorem Pool.Step.tokens (h : Pool.Step cfg v a v') (hv : Named v)
    (hg : orderly cfg dlq a = true) (j : JobId) (F : Finset WorkerId) (G : Finset Nat) :
    ∃ F' G', tokens cfg dlq v' F G j + a.frees j ≤ tokens cfg dlq v F' G' j + a.issues j := by
  have rest : ∀ w p, p.holds cfg j = 0 → ∃ F' G', v.store.load dlq j +
      ∑ k ∈ F, (Function.update v.worker w p k).holds cfg j + ∑ k ∈ G, (v.client k).holds j ≤
      Queue.tokens cfg dlq v F' G' j := by
    intro w p hp
    exact ⟨_, _, tokens_worker F G (by rw [hp]; omega)⟩
  cases h with
  | worker hl he hd =>
    rename_i w c r σ p
    have hx : σ.load dlq j + (Action.worker w (v.worker w) c r).frees j + p.holds cfg j ≤
        v.store.load dlq j + (v.worker w).holds cfg j := by
      have := hd.holds hv he hg j
      omega
    have := tokens_worker F G hx
    refine ⟨_, _, le_trans (le_of_eq ?_) this⟩
    simp only [Queue.tokens]
    omega
  | client he hs =>
    rename_i c r σ n p
    have hx : σ.load dlq j + (Action.client n (v.client n) c r).frees j + p.holds j ≤
        v.store.load dlq j + 0 + (v.client n).holds j := by
      have := hs.holds hv he hg j
      omega
    have := tokens_client cfg F G hx
    refine ⟨_, _, le_trans (le_of_eq ?_) this⟩
    simp only [Queue.tokens]
    omega
  | reaper he hs =>
    rename_i c r σ n q
    have hload : σ.load dlq j = v.store.load dlq j := by
      generalize v.reaper n = p at hs hg
      cases hs with
      | lookup hl => rw [he.lookup hl]
      | push => cases hg
      | _ => exact he.load rfl
    refine ⟨F, G, le_of_eq ?_⟩
    simp only [Queue.tokens, hload]
    rfl
  | start | turn | stop | crash => exact rest _ _ rfl
  | submit hn hp =>
    rename_i n p
    have hx : v.store.load dlq j + p.holds j ≤
        v.store.load dlq j + (p.publishes.map (·.id)).count j + (v.client n).holds j := by
      have := Request.holds_le_publishes (j := j) hp
      omega
    exact ⟨_, _, tokens_client cfg F G hx⟩
  | crashClient =>
    rename_i n
    have hx : v.store.load dlq j + Request.done.holds j ≤
        v.store.load dlq j + 0 + (v.client n).holds j := le_add_right _ _
    exact ⟨_, _, tokens_client cfg F G hx⟩
  | _ => exact ⟨F, G, le_refl _⟩

theorem Exclusive.init : Exclusive cfg dlq {} := by
  intro j F G
  simp [tokens, load, Delivery.holds, Request.holds]

theorem Pool.Step.issued (h : Pool.Step cfg v a v') (j : JobId) :
    (v'.issued.map (·.id)).count j = (v.issued.map (·.id)).count j + a.issues j := by
  cases h with
  | submit =>
    simp only [issues, map_append, count_append]
    omega
  | _ => rfl

theorem Exclusive.step (he : Exclusive cfg dlq v) (hv : Named v) (h : Pool.Step cfg v a v')
    (hg : orderly cfg dlq a = true) : Exclusive cfg dlq v' := by
  intro j F G
  obtain ⟨F', G', ht⟩ := h.tokens hv hg j F G
  have := he j F' G'
  rw [h.issued j]
  omega

end Morf.Queue
