import Morf.Queue.Store

/-! The dead-worker reaper of `queue/reaper.go`. -/

namespace Morf.Queue

open Morf.Lib

/-- The loop of `reapWorker` over the processing list it has read.  A job that could not
be requeued is skipped. -/
def requeueAll (w : WorkerId) : List JobId → Op Unit
  | [] => return ()
  | j :: js => do
    let _ ← requeueProcessing w j
    requeueAll w js

/-- `reapWorker`.  The registration is deleted whatever became of the jobs. -/
def reapWorker (staleAfter : Time) (w : WorkerId) : Op Unit :=
  if w = "" then return ()
  else do
    match ← remote (.hgetHeartbeat w) with
    | .error _ => return ()
    | .ok none => return ()
    | .ok (some last) =>
      let t ← now
      if t < last + staleAfter then return ()
      else
        match ← remote (.lrange w) with
        | .error _ => return ()
        | .ok jobs =>
          requeueAll w jobs
          let _ ← remote (.delWorker w)

def reapPage (staleAfter : Time) : List WorkerId → Op Unit
  | [] => return ()
  | w :: ws => do
    reapWorker staleAfter w
    reapPage staleAfter ws

/-- `reapOnce`, cut off after `pages` rounds of `SCAN`. -/
def reapOnce (staleAfter : Time) : (pages cursor : Nat) → Op Unit
  | 0, _ => return ()
  | pages + 1, cursor => do
    match ← (.call (.scanWorkers cursor) .ret : Op (Except String (List WorkerId × Nat))) with
    | .error _ => return ()
    | .ok (keys, next) =>
      reapPage staleAfter keys
      if next = 0 then return () else reapOnce staleAfter pages next

/-- Where a sweep stands: between the `LREM` that took `j` off a processing list and the
`RPUSH` that puts it back, or elsewhere. -/
inductive Sweep
  | reaping
  | inHand (j : JobId)

def Cmd.lookup : Cmd → Bool
  | .scanWorkers _ | .now => true
  | .remote (.hgetHeartbeat _) | .remote (.lrange _) => true
  | _ => false

theorem Store.Exec.lookup {σ' : Store} {r : Reply c} (h : σ.Exec c r σ') (hc : c.lookup = true) :
    σ' = σ := by
  cases h.effect with
  | ok c => cases c <;> first | rfl | cases hc
  | webhook => cases hc
  | none => rfl

def sweepNext : Protocol Cmd Reply Sweep := fun p c r =>
  match p with
  | .reaping =>
    if c.lookup then some .reaping else
    match c, r with
    | .remote (.lrem _ j), .ok n => some (if n = 0 then .reaping else .inHand j)
    | .remote (.lrem _ _), .error _ => some .reaping
    | .remote (.delWorker _), _ => some .reaping
    | _, _ => none
  | .inHand j =>
    match c with
    | .remote (.rpush j') => if j' = j then some .reaping else none
    | _ => none

inductive Sweep.Step : Sweep → (c : Cmd) → Reply c → Sweep → Prop
  | lookup : c.lookup = true → Step .reaping c r .reaping
  | take : n ≠ 0 → Step .reaping (.remote (.lrem w j)) (.ok n) (.inHand j)
  | gone : Step .reaping (.remote (.lrem w j)) (.ok (0 : Nat)) .reaping
  | takeError : Step .reaping (.remote (.lrem w j)) (.error m) .reaping
  | forget : Step .reaping (.remote (.delWorker w)) r .reaping
  | push : Step (.inHand j) (.remote (.rpush j)) r .reaping

theorem sweepNext_step {r : Reply c} (h : sweepNext p c r = some p') : Sweep.Step p c r p' := by
  unfold sweepNext at h
  cases p with
  | reaping =>
    dsimp only at h
    split at h
    case isTrue hc =>
      cases h
      exact .lookup hc
    case isFalse => split at h <;> grind [Sweep.Step]
  | inHand j =>
    dsimp only at h
    split at h <;> grind [Sweep.Step]

theorem lookup_obeys {post : Sweep → α → Prop} {k : Reply c → Op α} (hc : c.lookup = true)
    (h : ∀ r, (k r).Obeys sweepNext post .reaping) :
    (Prog.call c k).Obeys sweepNext post .reaping :=
  fun r => ⟨.reaping, by simp [sweepNext, hc], h r⟩

theorem requeueProcessing_obeys :
    (requeueProcessing w j).Obeys sweepNext (fun m _ => m = .reaping) .reaping := by
  intro r
  cases r with
  | error e => exact ⟨.reaping, rfl, rfl⟩
  | ok n =>
    cases n with
    | zero => exact ⟨.reaping, rfl, rfl⟩
    | succ n =>
      refine ⟨.inHand j, rfl, fun r => ⟨.reaping, if_pos rfl, ?_⟩⟩
      cases r <;> rfl

theorem requeueAll_obeys (js : List JobId) :
    (requeueAll w js).Obeys sweepNext (fun m _ => m = .reaping) .reaping := by
  induction js with
  | nil => rfl
  | cons j js ih =>
    refine .bind (requeueProcessing_obeys.mono ?_)
    rintro _ _ rfl
    exact ih

theorem reapWorker_obeys :
    (reapWorker staleAfter w).Obeys sweepNext (fun m _ => m = .reaping) .reaping := by
  unfold reapWorker
  split
  · rfl
  rw [remote_bind]
  refine lookup_obeys rfl fun r => ?_
  rcases r with e | _ | last
  · rfl
  · rfl
  · refine lookup_obeys rfl fun t => ?_
    show Prog.Obeys _ _ (if t < last + staleAfter then _ else _) _
    split
    · rfl
    · rw [remote_bind]
      refine lookup_obeys rfl fun r => ?_
      cases r with
      | error e => rfl
      | ok jobs =>
        refine .bind ((requeueAll_obeys jobs).mono ?_)
        rintro _ _ rfl r
        exact ⟨.reaping, rfl, rfl⟩

theorem reapPage_obeys (ws : List WorkerId) :
    (reapPage staleAfter ws).Obeys sweepNext (fun m _ => m = .reaping) .reaping := by
  induction ws with
  | nil => rfl
  | cons w ws ih =>
    refine .bind (reapWorker_obeys.mono ?_)
    rintro _ _ rfl
    exact ih

theorem reapOnce_obeys (pages cursor : Nat) :
    (reapOnce staleAfter pages cursor).Obeys sweepNext (fun m _ => m = .reaping) .reaping := by
  induction pages generalizing cursor with
  | zero => rfl
  | succ pages ih =>
    rw [reapOnce, Prog.call_bind]
    refine lookup_obeys rfl fun r => ?_
    rw [Prog.ret_bind]
    rcases r with e | ⟨keys, next⟩
    · rfl
    · refine .bind ((reapPage_obeys keys).mono ?_)
      rintro _ _ rfl
      split
      · rfl
      · exact ih next

end Morf.Queue
