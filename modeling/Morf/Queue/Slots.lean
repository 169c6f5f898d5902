import Mathlib.Algebra.GroupWithZero.Nat
import Morf.Lib.Tally
import Morf.Queue.NoLoss

/-! Delivery slots: how often a job id occurs on the queue and on the processing lists. -/

namespace Morf.Queue

open Morf.Lib
open List Function Action Nat

def slots (σ : Store) (F : Finset WorkerId) (j : JobId) : Nat :=
  σ.jobQueue.count j + ∑ w ∈ F, (σ.processing w).count j

def Action.publishes (j : JobId) : Action → Nat
  | .client _ _ (.remote (.enqueueScript job)) (.ok _) => if job.id = j then 1 else 0
  | .client _ _ (.remote (.enqueueWithLimitScript job _ _)) (.ok true) =>
    if job.id = j then 1 else 0
  | _ => 0

def Action.retries (j : JobId) : Action → Nat
  | .worker _ (.requeued _ _) (.remote (.rpush i)) (.ok _) => if i = j then 1 else 0
  | _ => 0

/-- The acknowledgement after a retry push removes an entry of `j`. -/
def Action.settles (j : JobId) : Action → Nat
  | .worker _ (.pushed _) (.remote (.lrem _ i)) (.ok n) => if i = j ∧ n ≠ 0 then 1 else 0
  | _ => 0

def total (f : Action → Nat) (hist : List Action) : Nat := (hist.map f).sum

@[simp] theorem total_cons (f : Action → Nat) (a : Action) (hist : List Action) :
    total f (a :: hist) = f a + total f hist := by
  simp [total]

def outstanding (j : JobId) (hist : List Action) : Nat :=
  total (retries j) hist - total (settles j) hist

def Sweep.holds (j : JobId) : Sweep → Nat
  | .inHand i => if i = j then 1 else 0
  | .reaping => 0

@[simp] theorem holds_reaping (j : JobId) : Sweep.reaping.holds j = 0 := rfl

@[simp] theorem holds_inHand (i j : JobId) :
    (Sweep.inHand i).holds j = if i = j then 1 else 0 := rfl

/-- Every slot, and every id in the hands of a sweep, goes back to a publication or to a
retry push that has not been settled. -/
def Accounted (v : Pool) : Prop :=
  ∀ j F G, slots v.store F j + ∑ n ∈ G, (v.reaper n).holds j + total (settles j) v.hist ≤
    total (publishes j) v.hist + total (retries j) v.hist

def Cmd.keepsLists : Cmd → Bool
  | .remote (.blmove _) | .remote (.lrem _ _) | .remote (.rpush _) => false
  | .remote (.enqueueScript _) | .remote (.enqueueWithLimitScript _ _ _) => false
  | .remote (.cancelJobScript _ _) => false
  | _ => true

theorem Cmd.keepsLists_of_inert {c : Cmd} (h : c.inert = true) : c.keepsLists = true := by
  cases c with
  | remote c => cases c <;> first | rfl | cases h
  | _ => rfl

theorem Store.Exec.keepsLists {σ : Store} {r : Reply c} (h : σ.Exec c r σ')
    (hc : c.keepsLists = true) : σ'.jobQueue = σ.jobQueue ∧ σ'.processing = σ.processing := by
  cases h.effect with
  | ok c => cases c <;> first | exact ⟨rfl, rfl⟩ | cases hc
  | _ => exact ⟨rfl, rfl⟩

theorem slots_eq (hq : σ'.jobQueue = σ.jobQueue) (hp : σ'.processing = σ.processing) :
    slots σ' F j = slots σ F j := by
  simp only [slots, hq, hp]

theorem slots_pop (h : σ.Exec (.remote (.blmove w)) (.ok (some i)) σ') :
    slots σ' F j ≤ slots σ F j := by
  obtain ⟨ha, rfl⟩ := h.ok
  obtain ⟨q, hq, hσ⟩ := Store.blmove_some ha
  rw [hσ]
  simp only [slots, hq, apply_update fun _ (l : List JobId) => l.count j, count_append,
    count_cons, count_nil]
  have := Tally.sum_update_le (f := fun x => (σ.processing x).count j) (i := w) F
    (le_refl ((σ.processing w).count j + (0 + if (i == j) = true then 1 else 0)))
  omega

theorem slots_lrem {n : Nat} (h : σ.Exec (.remote (.lrem w i)) (.ok n) σ') :
    slots σ' F j + (if i = j ∧ n ≠ 0 then 1 else 0) ≤ slots σ (insert w F) j := by
  obtain ⟨hn, rfl⟩ := h.ok
  simp only [slots, Store.apply, apply_update fun _ (l : List JobId) => l.count j] at hn ⊢
  have key : ((σ.processing w).erase i).count j + (if i = j ∧ n ≠ 0 then 1 else 0) ≤
      (σ.processing w).count j := by
    rw [count_erase]
    by_cases hi : i = j
    · subst hi
      by_cases hm : i ∈ σ.processing w
      · simp [hn, hm]
      · simp [hn, hm]
    · simp [hi]
  have := Tally.sum_update_add_le (f := fun x => (σ.processing x).count j) F key
  omega

theorem slots_mono (h : F ⊆ G) : slots σ F j ≤ slots σ G j :=
  Nat.add_le_add_left (Finset.sum_le_sum_of_subset h) _

theorem Accounted.init : Accounted {} := by
  intro j F G
  simp [slots, Sweep.holds, total]

theorem Accounted.keep (hv : Accounted v) (hh : v'.hist = a :: v.hist) (h : ∀ j F G, ∃ F' G',
      slots v'.store F j + ∑ n ∈ G, (v'.reaper n).holds j + a.settles j ≤
        slots v.store F' j + ∑ n ∈ G', (v.reaper n).holds j + a.publishes j + a.retries j) :
    Accounted v' := by
  intro j F G
  obtain ⟨F', G', h⟩ := h j F G
  have := hv j F' G'
  simp only [hh, total_cons]
  omega

theorem settles_of_keepsLists {r : Reply c} (h : c.keepsLists = true) :
    (worker w p c r).settles j = 0 := by
  unfold settles
  split
  · rename_i heq
    cases heq
    cases h
  · rfl

theorem slots_ack (p : Delivery) (h : σ.Exec (.remote (.lrem w i)) r σ') :
    slots σ' F j + (worker w p (.remote (.lrem w i)) r).settles j ≤
      slots σ (insert w F) j := by
  cases r with
  | error m =>
    rw [h.error]
    cases p <;> exact slots_mono (Finset.subset_insert w F)
  | ok n =>
    have hn := slots_lrem (F := F) (j := j) h
    cases p <;> simp only [settles] <;> omega

theorem Accounted.deliver {v : Pool} {r : Reply c} (he : v.store.Exec c r σ)
    (hd : Delivery.Step cfg w (v.worker w) c r p) :
    ∀ j F, ∃ F', slots σ F j + (worker w (v.worker w) c r).settles j ≤
      slots v.store F' j + (worker w (v.worker w) c r).retries j := by
  intro j F
  generalize v.worker w = q at hd
  have quiet : c.keepsLists = true → slots σ F j + (worker w q c r).settles j ≤
      slots v.store F j + (worker w q c r).retries j := by
    intro hk
    obtain ⟨hq, hp⟩ := he.keepsLists hk
    rw [slots_eq hq hp, settles_of_keepsLists hk]
    exact le_add_right _ _
  cases hd with
  | pop => exact ⟨F, slots_pop he⟩
  | popNone =>
    rw [he.blmove_none]
    exact ⟨F, le_refl _⟩
  | popError =>
    rw [he.error]
    exact ⟨F, le_refl _⟩
  | push =>
    obtain ⟨-, rfl⟩ := he.ok
    refine ⟨F, ?_⟩
    simp only [slots, Store.apply, settles, retries, count_append,
      count_singleton, beq_iff_eq]
    omega
  | pushError =>
    rw [he.error]
    exact ⟨F, le_refl _⟩
  | ackDropped | ackPushed | ack => exact ⟨insert w F, le_add_right_of_le (slots_ack _ he)⟩
  | inert hi => exact ⟨F, quiet (Cmd.keepsLists_of_inert hi)⟩
  | _ => exact ⟨F, quiet rfl⟩

theorem Accounted.reap {v : Pool} {r : Reply c} (he : v.store.Exec c r σ)
    (hs : Sweep.Step (v.reaper n) c r b) :
    ∀ j F G, ∃ F' G', slots σ F j + ∑ m ∈ G, (Function.update v.reaper n b m).holds j ≤
      slots v.store F' j + ∑ m ∈ G', (v.reaper m).holds j := by
  intro j F G
  simp only [apply_update fun _ (b : Sweep) => b.holds j]
  -- a sweep that stays empty-handed
  have still : v.reaper n = .reaping → slots σ F j = slots v.store F j →
      slots σ F j + ∑ m ∈ G, Function.update (fun m => (v.reaper m).holds j) n 0 m ≤
        slots v.store F j + ∑ m ∈ G, (v.reaper m).holds j := by
    intro hr hs
    have := Tally.sum_update_le (f := fun m => (v.reaper m).holds j) (i := n) (b := 0) (c := 0) G
      (zero_le _)
    omega
  generalize hr : v.reaper n = q at hs
  cases hs with
  | lookup hl => exact ⟨F, G, still hr (by rw [he.lookup hl])⟩
  | takeError => exact ⟨F, G, still hr (by rw [he.error])⟩
  | forget =>
    obtain ⟨hq, hp⟩ := he.keepsLists rfl
    exact ⟨F, G, still hr (slots_eq hq hp)⟩
  | gone =>
    rename_i w i
    refine ⟨insert w F, G, ?_⟩
    have h1 := slots_lrem (F := F) (j := j) he
    have h2 := Tally.sum_update_le (f := fun m => (v.reaper m).holds j) (i := n) (b := 0) (c := 0) G
      (zero_le _)
    rw [holds_reaping]
    omega
  | take hn =>
    rename_i m w i
    refine ⟨insert w F, G, ?_⟩
    have h1 := slots_lrem (F := F) (j := j) he
    have h2 := Tally.sum_update_le (f := fun m => (v.reaper m).holds j) (i := n)
      (b := if i = j then 1 else 0) (c := if i = j then 1 else 0) G (le_add_left _ _)
    simp only [holds_inHand, hn, ne_eq, not_false_eq_true, and_true] at h1 ⊢
    omega
  | push =>
    rename_i i r
    have hh : (v.reaper n).holds j = if i = j then 1 else 0 := by rw [hr, holds_inHand]
    have h2 := Tally.sum_update_add_le (f := fun m => (v.reaper m).holds j) (i := n)
      (b := 0) (c := if i = j then 1 else 0) G (by rw [hh, zero_add])
    refine ⟨F, insert n G, ?_⟩
    rw [holds_reaping]
    obtain ⟨-, rfl⟩ | ⟨-, rfl⟩ := he.remote
    · simp only [slots, Store.apply, count_append, count_singleton, beq_iff_eq]
      omega
    · omega

theorem slots_publish (σ : Store) (job : ScanJob) :
    slots (σ.publish job) F j = slots σ F j + if job.id = j then 1 else 0 := by
  simp [slots, count_singleton, add_right_comm]

theorem slots_cancel (σ : Store) (i : JobId) (t : Time) :
    slots (σ.cancel i t).2 F j ≤ slots σ F j := by
  obtain ⟨-, h⟩ | ⟨g, -, -, -, -, hq, hp, -⟩ := σ.cancel_cases i t
  · rw [h]
  · simp only [slots, hq, hp]
    split
    · rw [count_erase]
      omega
    · exact le_refl _

theorem Accounted.serve {v : Pool} {r : Reply c} (he : v.store.Exec c r σ)
    (hs : Request.Step (v.client n) c r b) :
    ∀ j F, slots σ F j ≤
      slots v.store F j + (client n (v.client n) c r).publishes j := by
  intro j F
  generalize v.client n = q at hs
  have still : c.keepsLists = true →
      slots σ F j ≤ slots v.store F j + (client n q c r).publishes j := by
    intro hk
    obtain ⟨hq, hp⟩ := he.keepsLists hk
    rw [slots_eq hq hp]
    exact le_add_right _ _
  cases hs with
  | enqueue | resubmit =>
    obtain ⟨rfl, rfl⟩ | ⟨⟨m, rfl⟩, rfl⟩ := he.remote
    · exact (slots_publish ..).le
    · exact le_add_right _ _
  | publishError =>
    rw [he.error]
    exact le_add_right _ _
  | full =>
    rw [he.refused]
    exact le_add_right _ _
  | publish | enqueueWithLimit =>
    obtain ⟨hr, rfl⟩ | ⟨⟨m, hr⟩, rfl⟩ := he.remote
    · simp only [Store.apply] at hr ⊢
      split at hr
      · rw [if_pos ‹_›]
        exact le_add_right _ _
      · rw [if_neg ‹_›, hr]
        exact (slots_publish ..).le
    · exact le_add_right _ _
  | cancel =>
    obtain ⟨-, rfl⟩ | ⟨-, rfl⟩ := he.remote
    · exact le_add_right_of_le (slots_cancel ..)
    · exact le_add_right _ _
  | _ => exact still rfl

theorem Accounted.step (hv : Accounted v) (h : Pool.Step cfg v a v') : Accounted v' := by
  cases h with
  | worker hl he hd =>
    refine hv.keep rfl fun j F G => ?_
    obtain ⟨F', h⟩ := Accounted.deliver he hd j F
    refine ⟨F', G, ?_⟩
    dsimp only
    omega
  | reaper he hs =>
    refine hv.keep rfl fun j F G => ?_
    obtain ⟨F', G', h⟩ := Accounted.reap he hs j F G
    exact ⟨F', G', h⟩
  | client he hs =>
    refine hv.keep rfl fun j F G => ⟨F, G, ?_⟩
    have h := Accounted.serve he hs j F
    simp only [settles, retries]
    omega
  | crashReaper =>
    rename_i n
    refine hv.keep rfl fun j F G => ⟨F, G, ?_⟩
    have h := Tally.sum_update_le (f := fun m => (v.reaper m).holds j) (i := n) (b := 0) (c := 0) G
      (zero_le _)
    simp only [apply_update fun _ (b : Sweep) => b.holds j, holds_reaping, settles,
      retries, publishes]
    omega
  | _ => exact hv.keep rfl fun j F G => ⟨F, G, le_refl _⟩

/-- A job that clients have published once has at most one slot more than it has retry
pushes outstanding. -/
theorem slots_le_outstanding {cfg : Config} {s : Fleet} {j : JobId}
    (h : (Fleet.machine cfg).Reach Machine.anyStep {} s)
    (hone : total (publishes j) s.pool.hist ≤ 1) (F : Finset WorkerId) :
    slots s.pool.store F j ≤ 1 + outstanding j s.pool.hist := by
  have hv : Accounted s.pool :=
    Fleet.invariant_of_reach Fleet.ok_init Accounted.init (fun _ _ _ hv (_ : True) hs => hv.step hs)
      (h.mono fun _ _ _ _ _ _ => trivial)
  have := hv j F ∅
  simp only [Finset.sum_empty] at this
  unfold outstanding
  omega

/-- The worker crashes between the retry push and its acknowledgement: the id is left on
the queue and on the processing list. -/
theorem crashed_retry_two_slots :
    ∃ s, (Fleet.machine {}).Reach Machine.anyStep {} s ∧ s.Quiet ∧
      total (publishes "job") s.pool.hist = 1 ∧ slots s.pool.store {"w"} "job" = 2 := by
  let ls := retryRun ++ [.crash "w"]
  obtain ⟨s, hs⟩ : ∃ s, (Fleet.machine {}).exec {} ls = some s :=
    Option.isSome_iff_exists.mp (by decide)
  have he := hs
  cases hs
  exact ⟨_, Machine.reach_of_exec ls he,
    Fleet.quiet_of_exec ls he (by decide) (by decide) (by decide), by decide, by decide⟩

/-- After the acknowledgement nothing is outstanding and one slot is left. -/
theorem acknowledged_retry_one_slot :
    ∃ s, (Fleet.machine {}).Reach Machine.anyStep {} s ∧
      outstanding "job" s.pool.hist = 0 ∧ total (retries "job") s.pool.hist = 1 ∧
      ∀ F, slots s.pool.store F "job" ≤ 1 + outstanding "job" s.pool.hist := by
  let ls := retryRun ++ [.work "w" .ok]
  obtain ⟨s, hs⟩ : ∃ s, (Fleet.machine {}).exec {} ls = some s :=
    Option.isSome_iff_exists.mp (by decide)
  have hr := Machine.reach_of_exec ls hs
  cases hs
  exact ⟨_, hr, by decide, by decide, slots_le_outstanding hr (by decide)⟩

end Morf.Queue
