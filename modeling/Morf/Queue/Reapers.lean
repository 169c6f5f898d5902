import Mathlib.Data.List.Perm.Basic
import Morf.Lib.Tally
import Morf.Queue.Reaper

/-! Several reapers that sweep one dead worker at the same time. -/

namespace Morf.Queue

open Morf.Lib
open List Function

inductive Reaping
  | start
  | clock (last : Time)
  | listing
  | sweeping (jobs : List JobId)
  | inHand (j : JobId) (jobs : List JobId)
  | done

namespace Reaping

def sweep (w : WorkerId) (jobs : List JobId) : Op Unit := do
  requeueAll w jobs
  let _ ← remote (.delWorker w)

def list (w : WorkerId) : Op Unit := do
  match ← remote (.lrange w) with
  | .error _ => return ()
  | .ok jobs => sweep w jobs

def prog (staleAfter : Time) (w : WorkerId) : Reaping → Op Unit
  | .start => reapWorker staleAfter w
  | .clock last => do
    let t ← now
    if t < last + staleAfter then return () else list w
  | .listing => list w
  | .sweeping jobs => sweep w jobs
  | .inHand j jobs => do
    let _ ← remote (.rpush j)
    sweep w jobs
  | .done => return ()

def next (staleAfter : Time) : Reaping → (c : Cmd) → Reply c → Reaping
  | .start, .remote (.hgetHeartbeat _), .ok (some last) => .clock last
  | .clock last, .now, t => if t < last + staleAfter then .done else .listing
  | .listing, .remote (.lrange _), .ok jobs => .sweeping jobs
  | .sweeping (j :: jobs), .remote (.lrem _ _), .ok n =>
    if n = 0 then .sweeping jobs else .inHand j jobs
  | .sweeping (_ :: jobs), .remote (.lrem _ _), .error _ => .sweeping jobs
  | .inHand _ jobs, .remote (.rpush _), _ => .sweeping jobs
  | _, _, _ => .done

theorem law {w : WorkerId} (hw : w ≠ "") {k : Reply c → Op Unit}
    (h : prog staleAfter w m = .call c k) (r : Reply c) :
    k r = prog staleAfter w (next staleAfter m c r) := by
  cases m with
  | start =>
    simp only [prog, reapWorker, if_neg hw] at h
    cases h
    rcases r with e | _ | last <;> rfl
  | clock last =>
    cases h
    show (if r < last + staleAfter then pure () else list w) =
      prog staleAfter w (if r < last + staleAfter then .done else .listing)
    split <;> rfl
  | listing =>
    cases h
    cases r <;> rfl
  | sweeping jobs =>
    cases jobs with
    | nil => cases h; rfl
    | cons j jobs =>
      cases h
      rcases r with e | _ | n
      · rfl
      · rfl
      · -- an error of the push is only logged
        refine congrArg (Prog.call _) (funext fun r => ?_)
        cases r <;> rfl
  | inHand j jobs =>
    cases h
    rfl
  | done => cases h

theorem eq_done {w : WorkerId} (hw : w ≠ "") (h : prog staleAfter w m = .ret ()) : m = .done := by
  cases m with
  | start =>
    simp only [prog, reapWorker, if_neg hw] at h
    cases h
  | sweeping jobs => cases jobs <;> cases h
  | clock | listing | inHand => cases h
  | done => rfl

end Reaping

open Reaping

def reapScript (staleAfter : Time) {w : WorkerId} (hw : w ≠ "") : Script Cmd Reply Unit Reaping where
  prog := prog staleAfter w
  next := next staleAfter
  law := law hw

def Env.calm (staleAfter last : Time) : Env → Bool
  | .fail _ => false
  | .time t => last + staleAfter ≤ t
  | _ => true

inductive Reaping.Step (w : WorkerId) (last : Time) (σ : Store) : Reaping → Reaping → Store → Prop
  | registered : σ.workers w = some l → Step w last σ .start (.clock l) σ
  | unregistered : σ.workers w = none → Step w last σ .start .done σ
  | stale : Step w last σ (.clock last) .listing σ
  | list : Step w last σ .listing (.sweeping (σ.processing w)) σ
  | take : j ∈ σ.processing w → Step w last σ (.sweeping (j :: jobs)) (.inHand j jobs)
      { σ with processing := Function.update σ.processing w ((σ.processing w).erase j) }
  | miss : j ∉ σ.processing w → Step w last σ (.sweeping (j :: jobs)) (.sweeping jobs) σ
  | push : Step w last σ (.inHand j jobs) (.sweeping jobs) { σ with jobQueue := σ.jobQueue ++ [j] }
  | forget : Step w last σ (.sweeping []) .done
      { σ with workers := Function.update σ.workers w none }

section

variable {w : WorkerId} {σ : Store}

theorem exec_calm {r : Reply (.remote c)} (he : e.calm staleAfter last = true)
    (h : σ.exec (.remote c) e = some (r, σ')) : r = .ok (σ.apply c).1 ∧ σ' = (σ.apply c).2 := by
  cases e with
  | ok =>
    cases h
    exact ⟨rfl, rfl⟩
  | fail => cases he
  | _ => cases h

theorem reaping_step (hw : w ≠ "") {k : Reply c → Op Unit} {r : Reply c}
    (hm : ∀ l, m = .clock l → l = last) (hp : m.prog staleAfter w = .call c k)
    (he : e.calm staleAfter last = true) (h : σ.exec c e = some (r, σ')) :
    Reaping.Step w last σ m (m.next staleAfter c r) σ' := by
  cases m with
  | start =>
    simp only [prog, reapWorker, if_neg hw] at hp
    cases hp
    obtain ⟨rfl, hσ⟩ := exec_calm he h
    rw [show σ' = σ from hσ]
    cases hl : σ.workers w with
    | none => simpa [Store.apply, hl, Reaping.next] using .unregistered hl
    | some l => simpa [Store.apply, hl, Reaping.next] using .registered hl
  | clock l =>
    obtain rfl := hm l rfl
    cases hp
    cases e with
    | time t =>
      cases h
      simpa [Reaping.next, Nat.not_lt.mpr (of_decide_eq_true he)] using .stale
    | _ => cases h
  | listing =>
    cases hp
    obtain ⟨rfl, rfl⟩ := exec_calm he h
    exact .list
  | sweeping jobs =>
    cases jobs with
    | nil =>
      cases hp
      obtain ⟨rfl, rfl⟩ := exec_calm he h
      exact .forget
    | cons j jobs =>
      cases hp
      obtain ⟨rfl, rfl⟩ := exec_calm he h
      by_cases hj : j ∈ σ.processing w
      · simpa [Store.apply, hj, Reaping.next] using .take hj
      · simpa [Store.apply, hj, Reaping.next, erase_of_not_mem hj] using .miss hj
  | inHand j jobs =>
    cases hp
    obtain ⟨rfl, rfl⟩ := exec_calm he h
    exact .push
  | done => cases hp

end

namespace Reaping

variable {m : Reaping}

def holds (a : JobId) : Reaping → Nat
  | .inHand j _ => if j = a then 1 else 0
  | _ => 0

def Fits (last : Time) (left : List JobId) : Reaping → Prop
  | .start | .listing => True
  | .clock l => l = last
  | .sweeping jobs | .inHand _ jobs => left.Subperm jobs
  | .done => left = []

theorem Fits.mono (hle : left'.Subperm left) (h : m.Fits last left) : m.Fits last left' := by
  cases m with
  | start | listing => trivial
  | clock l => exact h
  | sweeping jobs | inHand j jobs => exact hle.trans h
  | done =>
    obtain rfl : left = [] := h
    exact subperm_nil.mp hle

def Dead (w : WorkerId) (last : Time) (σ : Store) : Prop :=
  σ.workers w = some last ∨ σ.workers w = none ∧ σ.processing w = []

namespace Step

theorem balance (h : Step w last σ m p σ') (a : JobId) :
    σ'.jobQueue.count a + (σ'.processing w).count a + p.holds a =
      σ.jobQueue.count a + (σ.processing w).count a + m.holds a := by
  cases h with
  | @take j jobs hj =>
    have hpos : 0 < (σ.processing w).count j := count_pos_iff.mpr hj
    simp only [update_self, holds, count_erase]
    by_cases hja : j = a
    · subst hja
      simp
      omega
    · simp [hja]
  | @push j jobs =>
    simp only [holds, count_append, count_singleton]
    by_cases hja : j = a <;> simp [hja]
    omega
  | _ => rfl

theorem kept (h : Step w last σ m p σ') : σ.jobQueue <+: σ'.jobQueue := by
  cases h with
  | push => exact List.prefix_append _ _
  | _ => exact prefix_rfl

theorem shrinks (h : Step w last σ m p σ') : (σ'.processing w).Subperm (σ.processing w) := by
  cases h with
  | @take j jobs => simpa using erase_subperm j (σ.processing w)
  | _ => exact .refl _

theorem fits (h : Step w last σ m p σ') (hd : Dead w last σ) (hm : m.Fits last (σ.processing w)) :
    p.Fits last (σ'.processing w) := by
  cases h with
  | registered hl =>
    rcases hd with hd | ⟨hd, -⟩
    · exact Option.some.inj (hl.symm.trans hd)
    · simp [hd] at hl
  | unregistered hl =>
    rcases hd with hd | ⟨-, hd⟩
    · simp [hl] at hd
    · exact hd
  | stale => trivial
  | list => exact .refl _
  | @take j jobs hj =>
    have h : ((σ.processing w).erase j).Subperm ((j :: jobs).erase j) := Subperm.erase j hm
    simpa [Fits] using h
  | @miss j jobs hj =>
    have h : ((σ.processing w).erase j).Subperm ((j :: jobs).erase j) := Subperm.erase j hm
    simpa [Fits, erase_of_not_mem hj] using h
  | push => exact hm
  | forget => exact subperm_nil.mp hm

theorem dead (h : Step w last σ m p σ') (hd : Dead w last σ) (hm : m.Fits last (σ.processing w)) :
    Dead w last σ' := by
  cases h with
  | take =>
    rcases hd with hd | ⟨hd, hp⟩
    · exact .inl hd
    · exact .inr ⟨hd, by simp [hp]⟩
  | forget => exact .inr ⟨update_self .., subperm_nil.mp hm⟩
  | _ => exact hd

end Step

structure Sound {n : Nat} (w : WorkerId) (last : Time) (σ₀ σ : Store) (m : Fin n → Reaping) :
    Prop where
  conserved : ∀ a, σ.jobQueue.count a + (σ.processing w).count a + ∑ i, (m i).holds a =
    σ₀.jobQueue.count a + (σ₀.processing w).count a
  kept : σ₀.jobQueue <+: σ.jobQueue
  dead : Dead w last σ
  fits : ∀ i, (m i).Fits last (σ.processing w)

theorem Sound.step {m : Fin n → Reaping} {i : Fin n} (hs : Sound w last σ₀ σ m)
    (h : Step w last σ (m i) p σ') : Sound w last σ₀ σ' (Function.update m i p) where
  conserved a := by
    have hsum := Tally.sum_apply_update (holds a) m i p
    have hold := hs.conserved a
    have hbal := h.balance a
    omega
  kept := hs.kept.trans h.kept
  dead := h.dead hs.dead (hs.fits i)
  fits i' := by
    by_cases hi : i' = i
    · subst hi
      simpa using h.fits hs.dead (hs.fits i')
    · simpa [hi] using (hs.fits i').mono h.shrinks

end Reaping

/-- Any number of reapers sweep a dead worker: once all of them have finished, its processing list is
empty, and the queue has got every occurrence of every job on it exactly once. -/
theorem reapers_do_not_interfere (n : Nat) (staleAfter last : Time) (w : WorkerId) (hw : w ≠ "")
    (σ₀ : Store) (hlast : σ₀.workers w = some last)
    (s : Crew Store Cmd Reply (Fin (n + 1)) Unit)
    (hs : (Crew.machine Store.exec ⟨σ₀, fun _ => reapWorker staleAfter w⟩).Reach
      (fun _ l => l.2.calm staleAfter last = true) ⟨σ₀, fun _ => reapWorker staleAfter w⟩ s)
    (hdone : ∀ i, s.prog i = .ret ()) :
    s.store.processing w = [] ∧
      ∃ gained, s.store.jobQueue = σ₀.jobQueue ++ gained ∧ gained.Perm (σ₀.processing w) := by
  have h0 : Reaping.Sound w last σ₀ σ₀ (fun _ : Fin (n + 1) => .start) :=
    ⟨fun a => by simp [holds], prefix_rfl, .inl hlast, fun i => trivial⟩
  obtain ⟨σ, m, rfl, hm⟩ := (reapScript staleAfter hw).crew_invariant h0
    (fun σ m i e c k r σ' hI hok hp he =>
      hI.step (reaping_step hw (fun l hl => by simpa [hl, Reaping.Fits] using hI.fits i) hp hok he)) hs
  have hend (i) : m i = .done := eq_done hw (hdone i)
  have hempty : σ.processing w = [] := by simpa [hend, Reaping.Fits] using hm.fits 0
  refine ⟨hempty, ?_⟩
  obtain ⟨gained, hg⟩ := hm.kept
  refine ⟨gained, hg.symm, perm_iff_count.mpr fun a => ?_⟩
  have hc := hm.conserved a
  simp only [hend, holds, hempty, ← hg, count_append, count_nil,
    Finset.sum_const_zero] at hc
  omega

def deadStore : Store where
  processing w := if w = "worker-1" then ["a", "a"] else []
  workers w := if w = "worker-1" then some 0 else none

def twoReapers : Crew Store Cmd Reply (Fin 2) Unit :=
  ⟨deadStore, fun _ => reapWorker 60 "worker-1"⟩

/-- Two reapers, each of which requeues one of two entries of the same job. -/
theorem two_reapers_share :
    ∃ s, (Crew.machine Store.exec twoReapers).Reach (fun _ l => l.2.calm 60 0 = true) twoReapers s ∧
      (∀ i, s.prog i = .ret ()) ∧ s.store.processing "worker-1" = [] ∧
      ∃ gained, s.store.jobQueue = [] ++ gained ∧ gained.Perm ["a", "a"] := by
  let run : List (Fin 2 × Env) :=
    [(0, .ok), (0, .time 60), (1, .ok), (1, .time 61), (0, .ok), (1, .ok), (0, .ok), (1, .ok),
      (1, .ok), (0, .ok), (0, .ok), (0, .ok), (1, .ok), (1, .ok)]
  obtain ⟨s, hs, hdone⟩ : ∃ s, (Crew.machine Store.exec twoReapers).Reach
      (fun _ l => l.2.calm 60 0 = true) twoReapers s ∧
      decide (∀ i, (s.prog i).result = some ()) = true :=
    Machine.exists_reach_of_execIf (b := fun _ l => l.2.calm 60 0) (fun _ _ h => h) run
      (by decide +kernel)
  have hret (i) : s.prog i = .ret () := Prog.result_eq_some.mp (of_decide_eq_true hdone i)
  exact ⟨s, hs, hret, reapers_do_not_interfere 1 60 0 "worker-1" (by decide) deadStore rfl s hs hret⟩

end Morf.Queue
