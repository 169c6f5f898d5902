import Morf.Queue.Runs

/-! Recovery of stranded jobs: which processing lists the reaper can still find, and what
a sweep that finds one does. -/

namespace Morf.Queue

open Morf.Lib
open List Function Option Store

def Store.answer (t : Time) (pages : List (List WorkerId)) (σ : Store) (c : Cmd) :
    Option (Reply c × Store) :=
  σ.exec c (match c with
    | .now => .time t
    | .scanWorkers i => .page (pages[i]?.getD []) (if i + 1 < pages.length then i + 1 else 0)
    | _ => .ok)

structure Enumerates (pages : List (List WorkerId)) (σ : Store) : Prop where
  nodup : pages.flatten.Nodup
  complete : ∀ w, w ∈ pages.flatten ↔ (σ.workers w).isSome

def Stale (staleAfter t : Time) (σ : Store) (w : WorkerId) : Prop :=
  w ≠ "" ∧ ∃ last, σ.workers w = some last ∧ last + staleAfter ≤ t

structure Swept (staleAfter t : Time) (ws : List WorkerId) (σ σ' : Store) : Prop where
  queue : ∀ j ∈ σ.jobQueue, j ∈ σ'.jobQueue
  others : ∀ w ∉ ws, σ'.workers w = σ.workers w
  list : ∀ w, (σ'.processing w = σ.processing w ∧ σ'.workers w = σ.workers w) ∨
    (σ'.processing w = [] ∧ ∀ j ∈ σ.processing w, j ∈ σ'.jobQueue)
  stale : ∀ w ∈ ws, Stale staleAfter t σ w → σ'.processing w = []

section

variable {σ : Store}

theorem Swept.keep (h : ∀ w ∈ ws, ¬ Stale staleAfter t σ w) : Swept staleAfter t ws σ σ where
  queue _ := id
  others _ _ := rfl
  list _ := .inl ⟨rfl, rfl⟩
  stale w hw hs := (h w hw hs).elim

theorem Swept.empty (h : Swept staleAfter t ws σ σ') (he : σ.processing w = []) :
    σ'.processing w = [] := by
  rcases h.list w with ⟨hp, -⟩ | ⟨hp, -⟩
  · rw [hp, he]
  · exact hp

theorem Swept.append (h : Swept staleAfter t ws σ₁ σ₂) (h' : Swept staleAfter t vs σ₂ σ₃) :
    Swept staleAfter t (ws ++ vs) σ₁ σ₃ where
  queue j hj := h'.queue j (h.queue j hj)
  others w hw := by
    rw [mem_append, not_or] at hw
    rw [h'.others w hw.2, h.others w hw.1]
  list w := by
    rcases h.list w with ⟨hp, hw⟩ | ⟨hp, hj⟩
    · rw [← hp, ← hw]
      exact h'.list w
    · exact .inr ⟨h'.empty hp, fun j hm => h'.queue j (hj j hm)⟩
  stale w hw hs := by
    rcases mem_append.mp hw with hw | hw
    · exact h'.empty (h.stale w hw hs)
    · -- the first part has emptied the list or has not touched the worker
      rcases h.list w with ⟨-, hl⟩ | ⟨hp, -⟩
      · refine h'.stale w hw ⟨hs.1, ?_⟩
        rw [hl]
        exact hs.2
      · exact h'.empty hp

theorem drive_remote (c : Remote) (f : Except String c.Answer → Op α) :
    (remote c >>= f).drive (answer t pages) σ =
      (f (.ok (σ.apply c).1)).drive (answer t pages) (σ.apply c).2 := rfl

theorem drive_requeueProcessing (h : σ.processing w = j :: js) :
    ∃ a, (requeueProcessing w j).drive (answer t pages) σ = some (a, { σ with
      processing := Function.update σ.processing w js
      jobQueue := σ.jobQueue ++ [j] }) := by
  refine ⟨.ok (), ?_⟩
  rw [requeueProcessing, drive_remote]
  simp only [apply, h, mem_cons_self, if_true, erase_cons_head]
  rfl

theorem drive_requeueAll (js : List JobId) (h : σ.processing w = js) :
    (requeueAll w js).drive (answer t pages) σ = some ((), { σ with
      processing := Function.update σ.processing w []
      jobQueue := σ.jobQueue ++ js }) := by
  induction js generalizing σ with
  | nil =>
    have hp : Function.update σ.processing w [] = σ.processing := by
      rw [← h, update_eq_self]
    rw [hp, append_nil]
    rfl
  | cons j js ih =>
    obtain ⟨a, ha⟩ := drive_requeueProcessing h
    rw [requeueAll, Prog.drive_bind, ha, bind_some]
    dsimp only
    rw [ih (update_self ..)]
    simp

theorem swept_worker (staleAfter t : Time) (w : WorkerId) (σ : Store) :
    Swept staleAfter t [w] σ { σ with
      processing := Function.update σ.processing w []
      jobQueue := σ.jobQueue ++ σ.processing w
      workers := Function.update σ.workers w none } where
  queue j hj := mem_append_left _ hj
  others v hv := update_of_ne (by simpa using hv) ..
  list v := by
    by_cases hv : v = w
    · subst hv
      exact .inr ⟨update_self .., fun j hj => mem_append_right _ hj⟩
    · exact .inl ⟨update_of_ne hv .., update_of_ne hv ..⟩
  stale v hv _ := by
    rw [mem_singleton.mp hv]
    exact update_self ..

theorem drive_reapWorker (staleAfter : Time) (w : WorkerId) (σ : Store) :
    ∃ σ', (reapWorker staleAfter w).drive (answer t pages) σ = some ((), σ') ∧
      Swept staleAfter t [w] σ σ' := by
  have fresh : ¬ Stale staleAfter t σ w → Swept staleAfter t [w] σ σ := by
    intro hn
    refine Swept.keep fun v hv => ?_
    rwa [mem_singleton.mp hv]
  unfold reapWorker
  split
  case isTrue hw => exact ⟨σ, rfl, fresh fun hs => hs.1 hw⟩
  case isFalse hw =>
    rw [drive_remote]
    simp only [apply]
    cases hb : σ.workers w with
    | none =>
      refine ⟨σ, rfl, fresh ?_⟩
      rintro ⟨-, l, hl, -⟩
      simp [hb] at hl
    | some last =>
      show ∃ σ', (if t < last + staleAfter then _ else _ : Op Unit).drive _ σ = _ ∧ _
      split
      case isTrue ht =>
        refine ⟨σ, rfl, fresh ?_⟩
        rintro ⟨-, l, hl, hle⟩
        rw [hb] at hl
        cases hl
        exact Nat.not_lt.mpr hle ht
      case isFalse ht =>
        refine ⟨_, ?_, swept_worker staleAfter t w σ⟩
        rw [drive_remote]
        simp only [apply]
        rw [Prog.drive_bind, drive_requeueAll _ rfl]
        rfl

theorem drive_reapPage (staleAfter : Time) (ws : List WorkerId) (σ : Store) :
    ∃ σ', (reapPage staleAfter ws).drive (answer t pages) σ = some ((), σ') ∧
      Swept staleAfter t ws σ σ' := by
  induction ws generalizing σ with
  | nil => exact ⟨σ, rfl, .keep nofun⟩
  | cons x ws ih =>
    obtain ⟨σ₁, h₁, hs₁⟩ := drive_reapWorker staleAfter x σ
    obtain ⟨σ₂, h₂, hs₂⟩ := ih σ₁
    refine ⟨σ₂, ?_, hs₁.append hs₂⟩
    rw [reapPage, Prog.drive_bind, h₁]
    exact h₂

theorem answer_scanWorkers (hi : i < pages.length) (h : ∀ w ∈ pages[i], (σ.workers w).isSome) :
    σ.answer t pages (.scanWorkers i) =
      some (.ok (pages[i], if i + 1 < pages.length then i + 1 else 0), σ) := by
  simp only [answer, exec, getElem?_eq_getElem hi, getD_some]
  rw [if_pos (List.all_eq_true.mpr h)]

theorem drive_reapOnce_from (i : Nat) (hi : i < pages.length) (hn : pages.length ≤ i + n)
    (hnd : (pages.drop i).flatten.Nodup) (hreg : ∀ w ∈ (pages.drop i).flatten, (σ.workers w).isSome) :
    ∃ σ', (reapOnce staleAfter n i).drive (answer t pages) σ = some ((), σ') ∧
      Swept staleAfter t (pages.drop i).flatten σ σ' := by
  induction n generalizing i σ with
  | zero => omega
  | succ n ih =>
    rw [drop_eq_getElem_cons hi, flatten_cons] at hnd hreg ⊢
    obtain ⟨σ₁, h₁, hs₁⟩ := drive_reapPage (t := t) staleAfter pages[i] σ
    have hscan := answer_scanWorkers (t := t) hi
      fun w hw => hreg w (mem_append_left _ hw)
    rw [reapOnce, Prog.call_bind, Prog.drive, hscan, bind_some]
    show ∃ σ', (reapPage staleAfter pages[i] >>= fun _ => _ : Op Unit).drive _ σ = _ ∧ _
    rw [Prog.drive_bind, h₁, bind_some]
    dsimp only
    by_cases hlast : i + 1 < pages.length
    · obtain ⟨-, hnd', hdisj⟩ := nodup_append.mp hnd
      obtain ⟨σ₂, h₂, hs₂⟩ := ih (i + 1) hlast (by omega) hnd' fun w hw => by
        rw [hs₁.others w fun hm => hdisj w hm w hw rfl]
        exact hreg w (mem_append_right _ hw)
      refine ⟨σ₂, ?_, hs₁.append hs₂⟩
      rw [if_pos hlast, if_neg (Nat.succ_ne_zero i)]
      exact h₂
    · rw [drop_eq_nil_of_le (by omega), if_neg hlast]
      exact ⟨σ₁, rfl, by simpa using hs₁⟩

theorem drive_reapOnce (he : Enumerates pages σ) (hs : Stale staleAfter t σ w) :
    ∃ σ', (reapOnce staleAfter pages.length 0).drive (answer t pages) σ = some ((), σ') ∧
      σ'.processing w = [] ∧ ∀ j ∈ σ.processing w, j ∈ σ'.jobQueue := by
  obtain ⟨last, hl, -⟩ := hs.2
  have hw : w ∈ pages.flatten := (he.complete w).mpr (by simp [hl])
  have hne : 0 < pages.length := by
    rcases pages with _ | _
    · cases hw
    · simp
  have hsweep : ∃ σ', (reapOnce staleAfter pages.length 0).drive (answer t pages) σ =
      some ((), σ') ∧ Swept staleAfter t pages.flatten σ σ' :=
    drive_reapOnce_from 0 hne (by omega) he.nodup fun v hv => (he.complete v).mp hv
  obtain ⟨σ', h, hσ⟩ := hsweep
  have hempty := hσ.stale w hw hs
  refine ⟨σ', h, hempty, fun j hj => ?_⟩
  rcases hσ.list w with ⟨hp, -⟩ | ⟨-, hq⟩
  · rw [← hp, hempty] at hj
    cases hj
  · exact hq j hj

end

def Cmd.unregisters (w : WorkerId) : (c : Cmd) → Reply c → Bool
  | .remote (.delWorker w'), .ok _ => w' = w
  | _, _ => false

theorem Cmd.unregisters_eq {r : Reply c} (h : c.unregisters w r = true) :
    c = .remote (.delWorker w) := by
  unfold unregisters at h
  split at h
  · rw [of_decide_eq_true h]
  · cases h

theorem Store.Exec.unregistered {σ : Store} {r : Reply c} (h : σ.Exec c r σ')
    (hc : c.unregisters w r = false) (hw : σ'.workers w = none) : σ.workers w = none := by
  cases h.effect with
  | ok c =>
    cases c <;> simp only [apply] at hw
    case delWorker w' =>
      have hne : w ≠ w' := by
        rintro rfl
        simp [Cmd.unregisters] at hc
      rwa [update_of_ne hne] at hw
    case hsetWorker w' t | hsetHeartbeat w' t =>
      by_cases hne : w = w'
      · subst hne
        simp at hw
      · rwa [update_of_ne hne] at hw
    case cancelJobScript j t =>
      obtain ⟨-, h⟩ | ⟨g, -, -, -, -, -, -, -, -, h, -⟩ := σ.cancel_cases j t
      · rwa [h] at hw
      · rwa [h] at hw
    case enqueueWithLimitScript job limit count => split at hw <;> exact hw
    case blmove w' => split at hw <;> exact hw
    all_goals exact hw
  | _ => exact hw

/-- The circumstances in which no list is lost from sight: the registration of a worker
that shuts down or is gone is only deleted once its list is empty, and a worker whose
registration is missing, because registering failed or a sweep took it for dead, does not
crash in the middle of a job before its next heartbeat has brought it back. -/
def attentive (v : Pool) : Action → Bool
  | .worker w _ (.remote (.delWorker _)) _ => (v.store.processing w).isEmpty
  | .reaper _ _ (.remote (.delWorker w)) (.ok _) =>
    v.life w = .running || (v.store.processing w).isEmpty
  | .crash w => (v.store.workers w).isSome || (v.store.processing w).isEmpty
  | _ => true

structure Registered (v : Pool) : Prop where
  anonymous : v.life "" = .unborn
  present : ∀ w, v.life w = .running → (v.worker w).gone = false
  listed : ∀ w, v.life w ≠ .running → v.store.workers w = none → v.store.processing w = []

theorem Registered.init : Registered {} := ⟨rfl, nofun, fun _ _ _ => rfl⟩

theorem Registered.named (hv : Registered v) (hl : v.life w = .running) : w ≠ "" := by
  rintro rfl
  rw [hv.anonymous] at hl
  cases hl

theorem Delivery.Step.leaves {r : Reply (.remote (.delWorker w'))}
    (h : Delivery.Step cfg w p (.remote (.delWorker w')) r p') : w' = w := by
  cases h with
  | unregister => rfl
  | inert hi => cases hi

theorem Delivery.Step.gone (h : Delivery.Step cfg w p c r p') (hp : p.gone = false)
    (hp' : p'.gone = true) : c = .remote (.delWorker w) := by
  cases h with
  | unregister => rfl
  | inert =>
    rw [hp] at hp'
    cases hp'
  | pickUp =>
    unfold Queue.pickUp at hp'
    split at hp' <;> cases hp'
  | _ => cases hp'

theorem Registered.deliver (hv : Registered v) (hl : v.life w = .running)
    (hg : attentive v (.worker w (v.worker w) c r) = true) (he : v.store.Exec c r σ)
    (hd : Delivery.Step cfg w (v.worker w) c r p) : Registered { v with
      store := σ
      worker := Function.update v.worker w p
      life := if p.gone then Function.update v.life w .stopped else v.life
      hist := .worker w (v.worker w) c r :: v.hist } := by
  by_cases hp : p.gone = true
  · -- the worker has deleted its registration and leaves
    obtain rfl := hd.gone (hv.present w hl) hp
    simp only [if_pos hp]
    refine ⟨(update_of_ne (hv.named hl).symm ..).trans hv.anonymous, fun w' hrun => ?_,
      fun w' hrun hnone => he.processing_nil (by simp) ?_⟩
    · have hw : w' ≠ w := by
        rintro rfl
        simp at hrun
      simp only [update_of_ne hw] at hrun ⊢
      exact hv.present w' hrun
    · by_cases hw : w' = w
      · subst hw
        simpa [attentive] using hg
      · simp only [update_of_ne hw] at hrun
        refine hv.listed w' hrun (he.unregistered (Bool.eq_false_iff.mpr fun hc => hw ?_) hnone)
        cases Cmd.unregisters_eq hc
        rfl
  · simp only [if_neg hp]
    refine ⟨hv.anonymous, fun w' hrun => ?_, fun w' hrun hnone => ?_⟩
    · by_cases hw : w' = w
      · subst hw
        simpa using hp
      · simpa [hw] using hv.present w' hrun
    · have hw : w' ≠ w := by
        rintro rfl
        exact hrun hl
      refine he.processing_nil ?_ (hv.listed w' hrun (he.unregistered ?_ hnone))
      · rintro rfl
        exact hw hd.popper
      · refine Bool.eq_false_iff.mpr fun hc => hw ?_
        obtain rfl := Cmd.unregisters_eq hc
        exact hd.leaves

theorem Registered.reap (hv : Registered v) (hg : attentive v (.reaper n (v.reaper n) c r) = true)
    (he : v.store.Exec c r σ) (hs : Sweep.Step (v.reaper n) c r q) (hl : v.life w ≠ .running)
    (hw : σ.workers w = none) : σ.processing w = [] := by
  refine he.processing_nil ?_ ?_
  · rintro rfl
    generalize v.reaper n = p at hs
    cases hs with
    | lookup hl => cases hl
  by_cases hc : c.unregisters w r = true
  · obtain rfl := Cmd.unregisters_eq hc
    cases r with
    | ok u => simpa [attentive, hl] using hg
    | error m => cases hc
  · exact hv.listed w hl (he.unregistered (by simpa using hc) hw)

theorem Registered.serve (hv : Registered v) (he : v.store.Exec c r σ)
    (hs : Request.Step (v.client n) c r q) (hl : v.life w ≠ .running) (hw : σ.workers w = none) :
    σ.processing w = [] := by
  refine he.processing_nil (hs.foreign rfl) (hv.listed w hl (he.unregistered ?_ hw))
  exact Bool.eq_false_iff.mpr fun hc => hs.foreign rfl (Cmd.unregisters_eq hc)

theorem Registered.step (hv : Registered v) (h : Pool.Step cfg v a v')
    (hg : attentive v a = true) : Registered v' := by
  cases h with
  | worker hl he hd => exact hv.deliver hl hg he hd
  | reaper he hs => exact ⟨hv.anonymous, hv.present, fun w => hv.reap hg he hs⟩
  | client he hs => exact ⟨hv.anonymous, hv.present, fun w => hv.serve he hs⟩
  | start hl hne =>
    rename_i w
    refine ⟨?_, fun w' hrun => ?_, fun w' hrun => hv.listed w' fun h => hrun ?_⟩
    · exact (update_of_ne hne.symm ..).trans hv.anonymous
    · by_cases hw : w' = w
      · subst hw
        simp [Delivery.gone]
      · simp only [update_of_ne hw] at hrun ⊢
        exact hv.present w' hrun
    · by_cases hw : w' = w
      · subst hw
        simp
      · simpa [hw] using h
  | turn hl hr | stop hl hr =>
    rename_i w
    refine ⟨hv.anonymous, fun w' hrun => ?_, hv.listed⟩
    by_cases hw : w' = w
    · subst hw
      simp [Delivery.gone]
    · simpa [hw] using hv.present w' hrun
  | beat hl =>
    rename_i w t
    refine ⟨hv.anonymous, hv.present, fun w' hrun hnone => hv.listed w' hrun ?_⟩
    have hw : w' ≠ w := by
      rintro rfl
      exact hrun hl
    simpa [apply, hw] using hnone
  | crash hl =>
    rename_i w
    refine ⟨(update_of_ne (hv.named hl).symm ..).trans hv.anonymous, fun w' hrun => ?_,
      fun w' hrun hnone => ?_⟩
    · have hw : w' ≠ w := by
        rintro rfl
        simp at hrun
      simp only [update_of_ne hw] at hrun ⊢
      exact hv.present w' hrun
    · by_cases hw : w' = w
      · subst hw
        have hnone : v.store.workers w' = none := hnone
        simpa [attentive, hnone] using hg
      · simp only [update_of_ne hw] at hrun
        exact hv.listed w' hrun hnone
  | _ => exact ⟨hv.anonymous, hv.present, hv.listed⟩

/-- Every job on a processing list is with a running worker, or behind a registration
from which a sweep puts it back on the queue once the heartbeat is old enough. -/
theorem stranded_recoverable {cfg : Config} {s : Fleet} {w : WorkerId}
    (h : (Fleet.machine cfg).Reach (Fleet.Under cfg (fun v a => attentive v a = true)) {} s)
    (hw : s.pool.store.processing w ≠ []) :
    s.pool.life w = .running ∨ ∃ last, s.pool.store.workers w = some last ∧
      ∀ staleAfter t pages, last + staleAfter ≤ t → Enumerates pages s.pool.store →
        ∃ σ, (reapOnce staleAfter pages.length 0).drive (answer t pages) s.pool.store =
            some ((), σ) ∧
          σ.processing w = [] ∧ ∀ j ∈ s.pool.store.processing w, j ∈ σ.jobQueue := by
  have hv : Registered s.pool :=
    Fleet.invariant_of_reach Fleet.ok_init Registered.init
      (fun _ _ _ hv hg hs => hv.step hs hg) h
  have hname : w ≠ "" := by
    rintro rfl
    exact hw ((Fleet.named h).empty _ hv.anonymous)
  refine or_iff_not_imp_left.mpr fun hl => ?_
  obtain ⟨last, hlast⟩ : ∃ last, s.pool.store.workers w = some last :=
    ne_none_iff_exists'.mp fun hn => hw (hv.listed w hl hn)
  exact ⟨last, hlast, fun staleAfter t pages ht he =>
    drive_reapOnce he ⟨hname, last, hlast, ht⟩⟩

/-- A worker that crashes in the middle of a job leaves it where a sweep finds it. -/
theorem crashed_job_recoverable :
    ∃ s, (Fleet.machine {}).Reach (Fleet.Under {} fun v a => attentive v a = true) {} s ∧
      s.pool.life "w" = .stopped ∧ s.pool.store.processing "w" = ["job"] ∧
      ∃ σ, (reapOnce 90 1 0).drive (answer 100 [["w"]]) s.pool.store = some ((), σ) ∧
        "job" ∈ σ.jobQueue := by
  let ls := poppedRun ++ [.crash "w"]
  obtain ⟨s, hs⟩ : ∃ s, (Fleet.machine {}).execIf (Fleet.passes {} attentive) {} ls = some s :=
    isSome_iff_exists.mp (by decide)
  have hr := Machine.reach_of_execIf (fun _ _ => Fleet.under_of_passes) ls hs
  have hlife : s.pool.life "w" = .stopped := by
    cases hs
    rfl
  have hlist : s.pool.store.processing "w" = ["job"] := by
    cases hs
    rfl
  have hworkers : s.pool.store.workers = Function.update (fun _ => none) "w" (some 0) := by
    cases hs
    rfl
  have hpages : Enumerates [["w"]] s.pool.store := by
    refine ⟨by decide, fun w => ?_⟩
    rw [hworkers]
    by_cases hw : w = "w" <;> simp [hw]
  refine ⟨s, hr, hlife, hlist, ?_⟩
  obtain hl | ⟨last, hlast, hsweep⟩ := stranded_recoverable hr (by rw [hlist]; simp)
  · rw [hlife] at hl
    cases hl
  · rw [hworkers, update_self] at hlast
    cases hlast
    obtain ⟨σ, hσ, -, hj⟩ := hsweep 90 100 [["w"]] (by decide) hpages
    exact ⟨σ, hσ, hj "job" (by simp [hlist])⟩

/-- A sweep that fails to requeue the job of a crashed worker deletes the registration
all the same: no later sweep looks at that list again. -/
theorem skipped_job_stranded :
    ∃ s, (Fleet.machine {}).Reach Machine.anyStep {} s ∧ s.Quiet ∧
      s.pool.store.processing "w" = ["job"] ∧ s.pool.life "w" = .stopped ∧
      s.pool.store.workers "w" = none := by
  let ls := poppedRun ++ [.crash "w", .sweep 0 1, .reap 0 (.page ["w"] 0), .reap 0 .ok,
    .reap 0 (.time 1000), .reap 0 .ok, .reap 0 (.fail "connection refused"), .reap 0 .ok]
  obtain ⟨s, hs⟩ : ∃ s, (Fleet.machine {}).exec {} ls = some s :=
    isSome_iff_exists.mp (by decide)
  have he := hs
  cases hs
  exact ⟨_, Machine.reach_of_exec ls he,
    Fleet.quiet_of_exec ls he (by decide) (by decide) (by decide), rfl, rfl, rfl⟩

end Morf.Queue
