import Mathlib.Algebra.GroupWithZero.Nat
import Morf.Lib.Machine
import Mathlib.Data.List.Perm.Basic

/-! Fan-out over goroutines: a launching loop bounded by a semaphore, tasks that put their
results into a buffered channel, and a collection of the channel after the last task has
ended. -/

namespace Morf.Lib.FanOut

open List Option

inductive Status (α : Type)
  | fetching (answer : Option α)
  | sending (value : α)
  | releasing
  | finishing
  | ended

namespace Status

def holds : Status α → Bool
  | .fetching _ | .sending _ | .releasing => true
  | .finishing | .ended => false

def isEnded : Status α → Bool
  | .ended => true
  | _ => false

theorem isEnded_iff {st : Status α} : st.isEnded = true ↔ st = .ended := by
  cases st <;> simp [isEnded]

def pending : Status α → List α
  | .fetching answer => answer.toList
  | .sending value => [value]
  | .releasing | .finishing | .ended => []

def stepsLeft : Status α → Nat
  | .fetching _ => 4
  | .sending _ => 3
  | .releasing => 2
  | .finishing => 1
  | .ended => 0

end Status

structure State (α : Type) where
  waiting : List (Option α)
  running : List (Status α) := []
  channel : List α := []
  result : Option (List α) := none

inductive Label
  | launch
  | work (i : Nat)
  | collect

/-- The next state of a goroutine, with the channel; it waits for room in the channel. -/
def advance (capacity : Nat) (channel : List α) : Status α → Option (Status α × List α)
  | .fetching (some v) => some (.sending v, channel)
  | .fetching none => some (.releasing, channel)
  | .sending v =>
    if channel.length < capacity then some (.releasing, channel ++ [v]) else none
  | .releasing => some (.finishing, channel)
  | .finishing => some (.ended, channel)
  | .ended => none

open Status

def step (capacity width : Nat) (s : State α) : Label → Option (State α)
  | .launch =>
    match s.waiting with
    | [] => none
    | answer :: waiting =>
      if s.running.countP holds < width then
        some { s with waiting, running := s.running ++ [.fetching answer] }
      else none
  | .work i =>
    (s.running[i]?).bind fun st =>
      (advance capacity s.channel st).map fun (st, channel) =>
        { s with running := s.running.set i st, channel }
  | .collect =>
    if s.waiting.isEmpty && s.running.all isEnded && s.result.isNone then
      some { s with result := some s.channel }
    else none

def machine (capacity width : Nat) (answers : List (Option α)) : Machine (State α) Label where
  init := { waiting := answers }
  step := step capacity width

def values (s : State α) : List α :=
  s.channel ++ s.running.flatMap pending ++ s.waiting.filterMap id

variable {s : State α}

theorem step_cases (h : step capacity width s l = some s') :
    (∃ answer waiting, s.waiting = answer :: waiting ∧ s.running.countP holds < width ∧
      s' = { s with waiting, running := s.running ++ [.fetching answer] }) ∨
    (∃ pre st post st' channel, s.running = pre ++ st :: post ∧
      advance capacity s.channel st = some (st', channel) ∧
      s' = { s with running := pre ++ st' :: post, channel }) ∨
    (s.waiting = [] ∧ s.running.all isEnded = true ∧ s.result = none ∧
      s' = { s with result := some s.channel }) := by
  cases l with
  | launch =>
    simp only [step] at h
    split at h
    · cases h
    · rename_i answer waiting hw
      split at h
      · cases h
        exact .inl ⟨answer, waiting, hw, ‹_›, rfl⟩
      · cases h
  | work i =>
    obtain ⟨st, hst, h⟩ := bind_eq_some_iff.mp h
    obtain ⟨⟨st', channel⟩, ha, rfl⟩ := map_eq_some_iff.mp h
    obtain ⟨hi, rfl⟩ := List.getElem?_eq_some_iff.mp hst
    obtain ⟨pre, post, hrun, -, hset⟩ := @List.exists_of_set _ _ st' _ hi
    exact .inr (.inl ⟨pre, _, post, st', channel, hrun, ha, by rw [← hset]⟩)
  | collect =>
    simp only [step, Bool.and_eq_true] at h
    split at h
    · rename_i hc
      cases h
      exact .inr (.inr ⟨List.isEmpty_iff.mp hc.1.1, hc.1.2, isNone_iff_eq_none.mp hc.2, rfl⟩)
    · cases h

theorem advance_spec (h : advance capacity channel st = some (st', channel')) :
    channel' ++ st'.pending = channel ++ st.pending ∧
      (channel.length ≤ capacity → channel'.length ≤ capacity) ∧ st'.stepsLeft < st.stepsLeft := by
  cases st with
  | fetching answer =>
    cases answer with
    | none =>
      cases h
      exact ⟨rfl, id, by simp [stepsLeft]⟩
    | some v =>
      cases h
      exact ⟨rfl, id, by simp [stepsLeft]⟩
  | sending v =>
    simp only [advance] at h
    split at h
    case isTrue hroom =>
      cases h
      refine ⟨by simp [pending], fun _ => ?_, by simp [stepsLeft]⟩
      rw [length_append]
      exact hroom
    case isFalse => cases h
  | releasing =>
    cases h
    exact ⟨rfl, id, by simp [stepsLeft]⟩
  | finishing =>
    cases h
    exact ⟨rfl, id, by simp [stepsLeft]⟩
  | ended => cases h

def stepsLeft (s : State α) : Nat :=
  5 * s.waiting.length + (s.running.map Status.stepsLeft).sum + if s.result.isNone then 1 else 0

theorem stepsLeft_lt (h : step capacity width s l = some s') : stepsLeft s' < stepsLeft s := by
  rcases step_cases h with ⟨answer, waiting, hw, -, rfl⟩ |
    ⟨pre, st, post, st', channel, hrun, ha, rfl⟩ | ⟨-, -, hr, rfl⟩
  · simp only [stepsLeft, hw, map_append, sum_append, map_cons, map_nil,
      sum_cons, sum_nil, length_cons, Status.stepsLeft]
    omega
  · have := (advance_spec ha).2.2
    simp only [stepsLeft, hrun, map_append, sum_append, map_cons, sum_cons]
    omega
  · simp [stepsLeft, hr]

structure Sound (capacity : Nat) (total : List α) (s : State α) : Prop where
  values : (values s).Perm total
  room : s.channel.length ≤ capacity
  returned : ∀ r, s.result = some r →
    r = s.channel ∧ s.waiting = [] ∧ s.running.all isEnded = true

theorem perm_middle (c p q r : List α) : (c ++ (p ++ (q ++ r))).Perm (c ++ q ++ (p ++ r)) := by
  rw [append_assoc]
  exact (perm_append_comm_assoc p q r).append_left c

theorem Sound.init (answers : List (Option α)) :
    Sound capacity (answers.filterMap id) (machine capacity width answers).init where
  values := by simp [FanOut.values, machine]
  room := by simp [machine]
  returned _ h := by cases h

theorem advance_ended (h : st.isEnded = true) : advance capacity channel st = none := by
  rw [isEnded_iff.mp h]
  rfl

theorem Sound.step (hs : Sound capacity total s) (h : step capacity width s l = some s') :
    Sound capacity total s' := by
  rcases step_cases h with ⟨answer, waiting, hw, -, rfl⟩ |
    ⟨pre, st, post, st', channel, hrun, ha, rfl⟩ | ⟨hw, hend, -, rfl⟩
  · refine ⟨?_, hs.room, fun r hr => ?_⟩
    · refine .trans (.of_eq ?_) hs.values
      cases answer <;> simp [FanOut.values, hw, pending]
    · rw [(hs.returned r hr).2.1] at hw
      cases hw
  · obtain ⟨hval, hroom, -⟩ := advance_spec ha
    refine ⟨?_, hroom hs.room, fun r hr => ?_⟩
    · have hold := hs.values
      simp only [FanOut.values, hrun, flatMap_append, flatMap_cons, append_assoc]
        at hold ⊢
      refine .trans (perm_middle _ _ _ _) (.trans ?_ hold)
      rw [hval]
      exact (perm_middle _ _ _ _).symm
    · -- every goroutine has ended by then
      have hall := (hs.returned r hr).2.2
      rw [hrun, all_append, all_cons, Bool.and_eq_true, Bool.and_eq_true] at hall
      rw [advance_ended hall.2.1] at ha
      cases ha
  · exact ⟨hs.values, hs.room, fun r hr => ⟨(some.inj hr).symm, hw, hend⟩⟩

theorem sound_of_reach
    (h : (machine capacity width answers).Reach Machine.anyStep
      (machine capacity width answers).init s) : Sound capacity (answers.filterMap id) s :=
  h.invariant (Sound.init answers) fun _ _ _ hs _ hstep => hs.step hstep

theorem values_of_ended (hend : s.running.all isEnded = true) (hw : s.waiting = []) :
    values s = s.channel := by
  have hrun : s.running.flatMap pending = [] := by
    rw [flatMap_eq_nil_iff]
    intro st hst
    rw [isEnded_iff.mp (List.all_eq_true.mp hend st hst)]
    rfl
  simp [values, hrun, hw]

theorem returned_perm
    (h : (machine capacity width answers).Reach Machine.anyStep
      (machine capacity width answers).init s) (hr : s.result = some r) :
    r.Perm (answers.filterMap id) := by
  obtain ⟨rfl, hw, hend⟩ := (sound_of_reach h).returned r hr
  rw [← values_of_ended hend hw]
  exact (sound_of_reach h).values

theorem can_step (hwidth : 0 < width) (hroom : (answers.filterMap id).length ≤ capacity)
    (h : (machine capacity width answers).Reach Machine.anyStep
      (machine capacity width answers).init s) (hr : s.result = none) :
    ∃ l s', step capacity width s l = some s' := by
  by_cases hend : s.running.all isEnded = true
  · cases hw : s.waiting with
    | nil => exact ⟨.collect, _, by simp [step, hw, hend, hr]; rfl⟩
    | cons answer waiting =>
      have hfree : s.running.countP holds = 0 := by
        rw [countP_eq_zero]
        intro st hst
        rw [isEnded_iff.mp (List.all_eq_true.mp hend st hst)]
        nofun
      exact ⟨.launch, _, by simp [step, hw, hfree, hwidth]; rfl⟩
  · obtain ⟨st, hst, hne⟩ : ∃ st ∈ s.running, st.isEnded = false := by simpa using hend
    obtain ⟨i, hi⟩ := mem_iff_getElem?.mp hst
    suffices hadv : ∃ r, advance capacity s.channel st = some r by
      obtain ⟨⟨st', channel⟩, ha⟩ := hadv
      exact ⟨.work i, _, by simp [step, hi, ha]; rfl⟩
    cases st with
    | fetching answer => cases answer <;> exact ⟨_, rfl⟩
    | sending v =>
      -- the answer at hand is not in the channel yet
      obtain ⟨pre, post, hrun⟩ := append_of_mem hst
      have hlen := (sound_of_reach h).values.length_eq
      simp only [values, hrun, flatMap_append, flatMap_cons, pending,
        length_append, length_cons] at hlen
      exact ⟨_, if_pos (by omega)⟩
    | releasing => exact ⟨_, rfl⟩
    | finishing => exact ⟨_, rfl⟩
    | ended => cases hne

theorem exists_end (capacity width : Nat) (answers : List (Option α)) :
    ∃ s, (machine capacity width answers).Reach Machine.anyStep
      (machine capacity width answers).init s ∧ ∀ l, step capacity width s l = none :=
  Machine.exists_terminal stepsLeft (fun _ _ _ h => stepsLeft_lt h) _

/-- The fan-out cannot get stuck exactly if the channel has room for every answer. -/
theorem never_stuck_iff (hwidth : 0 < width) :
    (∀ s, (machine capacity width answers).Reach Machine.anyStep
      (machine capacity width answers).init s → s.result = none →
      ∃ l s', step capacity width s l = some s') ↔
    (answers.filterMap id).length ≤ capacity := by
  refine ⟨fun h => ?_, fun hroom s hs hr => can_step hwidth hroom hs hr⟩
  obtain ⟨s, hs, hstop⟩ := exists_end capacity width answers
  cases hr : s.result with
  | none =>
    obtain ⟨l, s', hl⟩ := h s hs hr
    rw [hstop l] at hl
    cases hl
  | some r =>
    rw [← (returned_perm hs hr).length_eq, ((sound_of_reach hs).returned r hr).1]
    exact (sound_of_reach hs).room

end Morf.Lib.FanOut
