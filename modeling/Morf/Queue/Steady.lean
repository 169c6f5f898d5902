import Morf.Queue.Leaks

/-! Smooth runs: no crash, no error of Redis, and no sweep that takes a running worker for
dead.  The processing lists then hold exactly what the workers are working on. -/

namespace Morf.Queue

open Morf.Lib
open Function

/-- The commands that go to the artifact store and not to Redis. -/
def Remote.artifact : Remote → Bool
  | .put _ | .delete _ => true
  | _ => false

def Cmd.served : (c : Cmd) → Reply c → Bool
  | .remote c, r => c.artifact || r.isOk
  | _, _ => true

/-- A running worker renews its heartbeat every thirty seconds, so that no sweep finds it
stale.  The artifact store may fail, and so may the commands of a sweep. -/
def smooth (v : Pool) : Action → Bool
  | .worker _ _ c r | .client _ _ c r => c.served r
  | .reaper _ _ (.remote (.lrem w _)) _ => v.life w ≠ .running
  | .crash _ | .crashReaper _ | .crashClient _ => false
  | _ => true

structure Steady (v : Pool) : Prop where
  named : Named v
  acked : ∀ w j, v.worker w ≠ .kept j
  listed : ∀ w, v.store.processing w = (v.worker w).entry.toList
  free : ∀ w, v.life w ≠ .running → (v.worker w).entry = none
  reaping : ∀ n, v.reaper n = .reaping

variable {σ : Store} {p : Delivery}

theorem Steady.init : Steady {} :=
  ⟨.init, fun _ _ => nofun, fun _ => rfl, fun _ _ => rfl, fun _ => rfl⟩

theorem entry_pickUp (j : JobId) (h : JobHash) : (pickUp j h).entry = some j := by
  unfold pickUp
  split <;> rfl

theorem Delivery.Step.unkept (hd : Delivery.Step cfg w q c r p) (hs : c.served r = true)
    (hq : q ≠ .kept j) : p ≠ .kept j := by
  cases hd with
  | inert => exact hq
  | pickUp =>
    unfold Queue.pickUp
    split <;> nofun
  | completeError | commitError => cases hs
  | _ => nofun

theorem Delivery.Step.listed (hd : Delivery.Step cfg w q c r p) (he : σ.Exec c r σ')
    (hs : c.served r = true) (hq : σ.processing w = q.entry.toList) :
    σ'.processing w = p.entry.toList := by
  cases hd with
  | inert hi => rw [congrFun (he.inert hi).processing w, hq]
  | pop =>
    obtain ⟨ha, rfl⟩ := he.ok
    obtain ⟨l, -, hσ⟩ := Store.blmove_some ha
    rw [hσ]
    simp [hq, Delivery.entry, Delivery.copy]
  | popNone => rw [he.blmove_none, hq]
  | popError => rw [he.error, hq]
  | pickUp =>
    rw [he.processing_eq (by simp) (fun _ => by simp), hq, entry_pickUp]
    rfl
  | ackDropped | ackPushed | ack =>
    obtain ⟨-, rfl⟩ | ⟨⟨m, rfl⟩, -⟩ := he.remote
    · simp [Store.apply, hq, Delivery.entry, Delivery.copy]
    · cases hs
  | _ => exact (he.processing_eq (by simp) (fun _ => by simp)).trans hq

theorem Delivery.entry_of_gone (h : p.gone = true) : p.entry = none := by
  cases p with
  | left => rfl
  | _ => cases h

theorem Steady.untaken {i : JobId} (hv : Steady v) (hw : v.life w ≠ .running)
    (he : v.store.Exec (.remote (.lrem w i)) (.ok n) σ) : n = 0 := by
  obtain ⟨hn, -⟩ := he.ok
  simpa [Store.apply, hv.listed w, hv.free w hw] using hn

theorem Steady.lrem_eq {r : Reply (.remote (.lrem w i))} (hv : Steady v) (hw : v.life w ≠ .running)
    (he : v.store.Exec (.remote (.lrem w i)) r σ) (x : WorkerId) :
    σ.processing x = v.store.processing x := by
  by_cases hx : x = w
  · subst hx
    have hnil : v.store.processing x = [] := by
      rw [hv.listed x, hv.free x hw]
      rfl
    rw [he.processing_nil (by simp) hnil, hnil]
  · refine he.processing_eq (by simp) ?_
    rintro k hk
    cases hk
    exact hx rfl

theorem Steady.step (hv : Steady v) (h : Pool.Step cfg v a v') (hg : smooth v a = true) :
    Steady v' where
  named := hv.named.step h
  acked w j := by
    have rest : ∀ {x p}, p ≠ .kept j → Function.update v.worker x p w ≠ .kept j := fun hp =>
      (forall_update_iff v.worker fun _ p => p ≠ .kept j).mpr ⟨hp, fun w _ => hv.acked w j⟩ w
    cases h with
    | worker hl he hd => exact rest (hd.unkept hg (hv.acked _ j))
    | start | turn | stop | crash => exact rest nofun
    | _ => exact hv.acked w j
  listed w := by
    have rest : ∀ {x p}, (v.worker x).entry = none → p.entry = none →
        v.store.processing w = (Function.update v.worker x p w).entry.toList := by
      intro x p hx hp
      rw [hv.listed w]
      by_cases hw : w = x
      · subst hw
        rw [update_self, hx, hp]
      · rw [update_of_ne hw]
    have resting : ∀ {x}, (v.worker x).resting = true → (v.worker x).entry = none := by
      intro x hr
      cases hp : v.worker x with
      | idle | left => rfl
      | kept i => exact absurd hp (hv.acked x i)
      | _ => rw [hp] at hr; cases hr
    cases h with
    | worker hl he hd =>
      rename_i x c r σ p
      dsimp only
      by_cases hx : w = x
      · subst hx
        rw [update_self]
        exact hd.listed he hg (hv.listed w)
      · rw [update_of_ne hx, ← hv.listed w]
        refine he.processing_eq ?_ ?_
        · rintro rfl
          exact hx hd.popper
        · rintro i rfl
          exact hx hd.acker
    | reaper he hs =>
      rename_i c r σ n p
      dsimp only
      rw [hv.reaping n] at hs hg
      rw [← hv.listed w]
      cases hs with
      | lookup hl => rw [he.lookup hl]
      | take | gone | takeError => exact hv.lrem_eq (of_decide_eq_true hg) he w
      | forget => exact he.processing_eq (by simp) (fun _ => by simp)
    | client he hs =>
      dsimp only
      rw [← hv.listed w]
      exact he.processing_eq (hs.foreign rfl) fun _ => hs.foreign rfl
    | start hl => exact rest (by rw [hv.named.unborn _ hl]; rfl) rfl
    | turn hl hr | stop hl hr => exact rest (resting hr) rfl
    | crash => cases hg
    | _ => exact hv.listed w
  free w hw := by
    have rest : ∀ {x p}, p.entry = none → v.life w ≠ .running →
        (Function.update v.worker x p w).entry = none := fun hp =>
      (forall_update_iff v.worker fun x p => v.life x ≠ .running → p.entry = none).mpr
        ⟨fun _ => hp, fun w _ => hv.free w⟩ w
    cases h with
    | worker hl he hd =>
      rename_i x c r σ p
      dsimp only at hw ⊢
      by_cases hx : w = x
      · subst hx
        rw [update_self]
        split at hw
        · exact Delivery.entry_of_gone ‹_›
        · exact absurd hl hw
      · rw [update_of_ne hx]
        refine hv.free w ?_
        split at hw
        · rwa [update_of_ne hx] at hw
        · exact hw
    | start => exact rest rfl (of_update (P := (· ≠ Life.running)) hw fun h => h rfl)
    | turn hl hr | stop hl hr => exact rest rfl hw
    | crash => cases hg
    | _ => exact hv.free w hw
  reaping n := by
    cases h with
    | reaper he hs =>
      rename_i c r σ m p
      dsimp only
      rw [hv.reaping m] at hs hg
      have hp : p = .reaping := by
        cases hs with
        | take hne => exact absurd (hv.untaken (of_decide_eq_true hg) he) hne
        | _ => rfl
      have hu : Function.update v.reaper m p = v.reaper := by
        rw [hp, ← hv.reaping m, update_eq_self]
      rw [hu]
      exact hv.reaping n
    | crashReaper => cases hg
    | _ => exact hv.reaping n

end Morf.Queue
