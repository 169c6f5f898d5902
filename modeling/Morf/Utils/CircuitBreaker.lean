import Mathlib.Algebra.Group.Int.Defs
import Mathlib.Logic.Function.Basic
import Morf.Lib.Machine

/-! The circuit breaker of `utils/circuitbreaker.go` under any number of concurrent callers.  A
call takes the lock twice, to be admitted and to record its outcome, and runs the protected
function in between. -/

namespace Morf.Utils

open Morf.Lib
open Function Option

inductive CircuitState
  | stateClosed
  | stateOpen
  | stateHalfOpen
  deriving DecidableEq

structure Config where
  maxFailures : Int
  resetTimeout : Int

/-- Times are nanoseconds. -/
structure CircuitBreaker where
  maxFailures : Int
  resetTimeout : Int
  state : CircuitState := .stateClosed
  failureCount : Int := 0
  lastFailTime : Int := 0
  inFlightProbe : Bool := false

def newCircuitBreaker (config : Config) : CircuitBreaker where
  maxFailures := if config.maxFailures ≤ 0 then 5 else config.maxFailures
  resetTimeout := if config.resetTimeout ≤ 0 then 60 * 10 ^ 9 else config.resetTimeout

structure Transition where
  old : CircuitState
  new : CircuitState
  changed : Bool

inductive Admission
  | rejected (err : String)
  | admitted (isProbe : Bool)
  deriving DecidableEq

namespace CircuitBreaker

def setState (cb : CircuitBreaker) (newState : CircuitState) : CircuitBreaker × Transition :=
  if cb.state = newState then (cb, ⟨cb.state, newState, false⟩)
  else
    ({ cb with
        state := newState
        failureCount := if newState = .stateClosed then 0 else cb.failureCount },
      ⟨cb.state, newState, true⟩)

def recordFailure (cb : CircuitBreaker) (now : Int) : CircuitBreaker × Transition :=
  let cb := { cb with failureCount := cb.failureCount + 1, lastFailTime := now }
  if cb.state = .stateHalfOpen then cb.setState .stateOpen
  else if cb.maxFailures ≤ cb.failureCount then cb.setState .stateOpen
  else (cb, ⟨cb.state, cb.state, false⟩)

def recordSuccess (cb : CircuitBreaker) : CircuitBreaker × Transition :=
  if cb.state = .stateHalfOpen then
    let (cb, transition) := cb.setState .stateClosed
    ({ cb with failureCount := 0 }, transition)
  else ({ cb with failureCount := 0 }, ⟨cb.state, cb.state, false⟩)

def admission (cb : CircuitBreaker) (since now : Int) : CircuitBreaker × Admission :=
  match cb.state with
  | .stateOpen =>
    if since - cb.lastFailTime < cb.resetTimeout then (cb, .rejected "circuit breaker is open")
    else
      ({ (cb.setState .stateHalfOpen).1 with inFlightProbe := true, lastFailTime := now },
        .admitted true)
  | .stateHalfOpen =>
    if cb.inFlightProbe then (cb, .rejected "circuit breaker is open")
    else ({ cb with inFlightProbe := true }, .admitted true)
  | .stateClosed => (cb, .admitted false)

def recording (cb : CircuitBreaker) (isProbe failed : Bool) (now : Int) :
    CircuitBreaker × Transition :=
  let cb := if isProbe then { cb with inFlightProbe := false } else cb
  if failed then cb.recordFailure now else cb.recordSuccess

end CircuitBreaker

structure Calls where
  cb : CircuitBreaker
  running : Nat → Option Bool := fun _ => none

open CircuitBreaker

/-- A call returns after recording its outcome.  A panic unwinds it without any recording. -/
inductive CallLabel
  | enter (i : Nat) (since now : Int)
  | leave (i : Nat) (failed : Bool) (now : Int)
  | panic (i : Nat)

namespace Calls

def step (s : Calls) : CallLabel → Option Calls
  | .enter i since now =>
    match s.running i, s.cb.admission since now with
    | some _, _ => none
    | none, (cb, .rejected _) => some { s with cb }
    | none, (cb, .admitted isProbe) =>
      some { cb, running := update s.running i (some isProbe) }
  | .leave i failed now =>
    (s.running i).map fun isProbe =>
      { cb := (s.cb.recording isProbe failed now).1, running := update s.running i none }
  | .panic i =>
    (s.running i).map fun _ => { s with running := update s.running i none }

def machine (config : Config) : Machine Calls CallLabel where
  init := { cb := newCircuitBreaker config }
  step := step

def OneProbe (s : Calls) : Prop :=
  ∀ i k, s.running i = some true → s.running k = some true → i = k

def ProbeReturns (s : Calls) (l : CallLabel) : Prop :=
  ∃ i failed now, l = .leave i failed now ∧ s.running i = some true

/-- While the breaker is half-open, only a probe returns. -/
def Timely (s : Calls) (l : CallLabel) : Prop :=
  ∀ i failed now, l = .leave i failed now → s.cb.state = .stateHalfOpen → s.running i = some true

end Calls

namespace CircuitBreaker

variable (cb : CircuitBreaker)

@[simp] theorem setState_state (st : CircuitState) : (cb.setState st).1.state = st := by
  rw [setState]
  split
  · assumption
  · rfl

@[simp] theorem setState_inFlightProbe (st : CircuitState) :
    (cb.setState st).1.inFlightProbe = cb.inFlightProbe := by
  rw [setState]
  split <;> rfl

section Admission

variable {cb}

theorem admission_rejected (h : cb.admission since now = (b, .rejected err)) :
    b = cb ∧ (cb.state = .stateOpen ∧ since - cb.lastFailTime < cb.resetTimeout ∨
      cb.state = .stateHalfOpen ∧ cb.inFlightProbe = true) := by
  unfold admission at h
  split at h
  · rename_i hst
    split at h
    · cases h
      exact ⟨rfl, .inl ⟨hst, ‹_›⟩⟩
    · cases h
  · rename_i hst
    split at h
    · cases h
      exact ⟨rfl, .inr ⟨hst, ‹_›⟩⟩
    · cases h
  · cases h

theorem admission_pass (h : cb.admission since now = (b, .admitted false)) :
    cb.state = .stateClosed ∧ b = cb := by
  unfold admission at h
  split at h
  · split at h <;> cases h
  · split at h <;> cases h
  · cases h
    exact ⟨‹_›, rfl⟩

theorem admission_probe (h : cb.admission since now = (b, .admitted true)) :
    cb.state ≠ .stateClosed ∧ (cb.state = .stateHalfOpen → cb.inFlightProbe = false) ∧
      b.state = .stateHalfOpen ∧ b.inFlightProbe = true := by
  unfold admission at h
  split at h
  · rename_i hst
    split at h <;> cases h
    simp [hst]
  · rename_i hst
    split at h <;> cases h
    simp_all
  · cases h

end Admission

theorem recording_state (p failed : Bool) (now : Int) :
    (cb.recording p failed now).1.state ≠ .stateHalfOpen := by
  rw [recording]
  generalize (if p then { cb with inFlightProbe := false } else cb) = cb'
  cases failed with
  | true =>
    simp only [if_true, recordFailure]
    split
    · simp
    · split
      · simp
      · assumption
  | false =>
    simp only [Bool.false_eq_true, if_false, recordSuccess]
    split
    · simp
    · assumption

theorem recording_inFlightProbe (p failed : Bool) (now : Int) :
    (cb.recording p failed now).1.inFlightProbe = (!p && cb.inFlightProbe) := by
  have hprobe : (if p then { cb with inFlightProbe := false } else cb).inFlightProbe =
      (!p && cb.inFlightProbe) := by
    cases p <;> rfl
  rw [recording, ← hprobe]
  generalize (if p then { cb with inFlightProbe := false } else cb) = cb'
  cases failed with
  | true =>
    simp only [if_true, recordFailure]
    split
    · simp
    · split <;> simp
  | false =>
    simp only [Bool.false_eq_true, if_false, recordSuccess]
    split <;> simp

end CircuitBreaker

namespace Calls

inductive Step (s : Calls) : CallLabel → Calls → Prop
  | refuse : Step s (.enter i since now) s
  | pass : s.running i = none → s.cb.state = .stateClosed →
      Step s (.enter i since now) { s with running := update s.running i (some false) }
  | probe : s.cb.state ≠ .stateClosed → (s.cb.state = .stateHalfOpen → s.cb.inFlightProbe = false) →
      b.state = .stateHalfOpen → b.inFlightProbe = true →
      Step s (.enter i since now) ⟨b, update s.running i (some true)⟩
  | leave : s.running i = some p → Step s (.leave i failed now)
      ⟨(s.cb.recording p failed now).1, update s.running i none⟩
  | panic : s.running i = some p →
      Step s (.panic i) { s with running := update s.running i none }

variable {s : Calls}

theorem step_spec (h : s.step l = some t) : Step s l t := by
  cases l with
  | enter i since now =>
    simp only [step] at h
    split at h
    · cases h
    · rename_i cb err _ hadm
      cases h
      rw [(admission_rejected hadm).1]
      exact .refuse
    · rename_i cb isProbe hi hadm
      cases h
      cases isProbe with
      | false =>
        obtain ⟨hst, rfl⟩ := admission_pass hadm
        exact .pass hi hst
      | true =>
        obtain ⟨hst, hfree, hnew, hflag⟩ := admission_probe hadm
        exact .probe hst hfree hnew hflag
  | leave i failed now =>
    obtain ⟨p, hp, rfl⟩ := map_eq_some_iff.mp h
    exact .leave hp
  | panic i =>
    obtain ⟨p, hp, rfl⟩ := map_eq_some_iff.mp h
    exact .panic hp

structure Sound (s : Calls) : Prop where
  halfOpen : ∀ i, s.running i = some true → s.cb.state = .stateHalfOpen ∧ s.cb.inFlightProbe = true
  one : s.OneProbe

theorem running_update (h : update s.running i p k = some true) :
    k = i ∧ p = some true ∨ s.running k = some true :=
  (update_cases h).imp_right And.right

theorem Sound.step (hs : s.Sound) (h : Step s l t) (hl : s.Timely l) : t.Sound := by
  -- a call that is not a probe comes or goes
  have keep : ∀ i p, p ≠ some true → Sound { s with running := update s.running i p } := by
    intro i p hp
    have hold : ∀ k, update s.running i p k = some true → s.running k = some true := by
      intro k hk
      exact (running_update hk).resolve_left fun h => hp h.2
    exact ⟨fun k hk => hs.halfOpen k (hold k hk), fun j k hj hk => hs.one j k (hold j hj) (hold k hk)⟩
  cases h with
  | refuse => exact hs
  | pass => exact keep _ _ (by simp)
  | panic => exact keep _ _ (by simp)
  | probe hst hfree hnew hflag =>
    rename_i i since now b
    have hnone : ∀ k, s.running k ≠ some true := by
      intro k hk
      obtain ⟨hhalf, hbusy⟩ := hs.halfOpen k hk
      rw [hfree hhalf] at hbusy
      cases hbusy
    have hself : ∀ k, update s.running i (some true) k = some true → k = i :=
      fun k hk => ((running_update hk).resolve_right (hnone k)).1
    exact ⟨fun _ _ => ⟨hnew, hflag⟩, fun j k hj hk => (hself j hj).trans (hself k hk).symm⟩
  | leave hi =>
    rename_i i p failed now
    have hnone : ∀ k, update s.running i none k ≠ some true := by
      intro k hk
      obtain ⟨-, hk⟩ | ⟨hki, hk⟩ := update_cases hk
      · cases hk
      · exact hki (hs.one k i hk (hl i failed now rfl (hs.halfOpen k hk).1))
    exact ⟨fun k hk => absurd hk (hnone k), fun j k hj => absurd hj (hnone j)⟩

/-- Along a run there is one probe at a time, and only its own return ends the half-open state,
exactly if no other call returns while the breaker is half-open. -/
theorem one_probe_iff (config : Config) (ls : List CallLabel) :
    (machine config).Along (fun s l t => t.OneProbe ∧
      (s.cb.state = .stateHalfOpen → t.cb.state ≠ .stateHalfOpen → s.ProbeReturns l))
      (machine config).init ls ↔
    (machine config).Along (fun s l _ => s.Timely l) (machine config).init ls := by
  refine Machine.along_iff (I := Sound) ?_ ?_ ls ⟨nofun, nofun⟩
  · intro s l t hs h
    have h : Step s l t := step_spec h
    constructor
    · rintro ⟨-, hexit⟩ i failed now rfl hhalf
      cases h with
      | leave hi =>
        obtain ⟨i', failed', now', hl, hprobe⟩ := hexit hhalf (recording_state _ _ _ _)
        cases hl
        exact hprobe
    · intro hl
      refine ⟨(hs.step h hl).one, fun hhalf hexit => ?_⟩
      cases h with
      | refuse => exact absurd hhalf hexit
      | pass => exact absurd hhalf hexit
      | panic => exact absurd hhalf hexit
      | probe _ _ hnew => exact absurd hnew hexit
      | leave hi => exact ⟨_, _, _, rfl, hl _ _ _ rfl hhalf⟩
  · intro s l t hs h hl
    exact hs.step (step_spec h) hl

/-- Two calls are admitted while the breaker is closed.  One of them fails and opens it, and after
the pause a probe is admitted. -/
def staleRun : List CallLabel :=
  [.enter 0 0 0, .enter 1 0 0, .leave 1 true 1, .enter 2 20 20]

/-- The other call fails while the probe is running.  The breaker takes that for the failure of the
probe, and admits a second one after the next pause. -/
theorem stale_failure_admits_second_probe :
    ∃ s t, (machine ⟨1, 10⟩).exec (machine ⟨1, 10⟩).init staleRun = some s ∧
      s.cb.state = .stateHalfOpen ∧ s.running 2 = some true ∧
      s.step (.leave 0 true 21) = some t ∧ t.cb.state = .stateOpen ∧ ¬ s.ProbeReturns (.leave 0 true 21) ∧
      ∃ u, t.step (.enter 3 40 40) = some u ∧ u.running 2 = some true ∧ u.running 3 = some true := by
  refine ⟨_, _, rfl, rfl, rfl, rfl, rfl, ?_, _, rfl, rfl, rfl⟩
  rintro ⟨i, failed, now, hl, hi⟩
  cases hl
  exact absurd hi (by decide)

theorem single_probe_at_a_time :
    (machine ⟨1, 10⟩).Along (fun s l t => t.OneProbe ∧
      (s.cb.state = .stateHalfOpen → t.cb.state ≠ .stateHalfOpen → s.ProbeReturns l))
      (machine ⟨1, 10⟩).init [.enter 0 0 0, .leave 0 true 1, .enter 1 20 20, .leave 1 true 21] := by
  refine (one_probe_iff _ _).mpr fun t₁ h₁ => ⟨nofun, fun t₂ h₂ => ⟨?_, fun t₃ h₃ => ⟨nofun, ?_⟩⟩⟩
  · obtain rfl := some.inj h₁
    rintro i failed now ⟨⟩ hhalf
    cases hhalf
  · obtain rfl := some.inj h₁
    obtain rfl := some.inj h₂
    obtain rfl := some.inj h₃
    refine fun t₄ _ => ⟨?_, trivial⟩
    rintro i failed now ⟨⟩ -
    rfl

def Released (s : Calls) : Prop := s.cb.inFlightProbe = true → ∃ i, s.running i = some true

def Calm (s : Calls) (l : CallLabel) : Prop := ∀ i, l = .panic i → s.running i ≠ some true

theorem Released.step (hs : s.Released) (h : Step s l t) (hl : s.Calm l) : t.Released := by
  have keep : ∀ {cb i p}, s.running i ≠ some true → cb.inFlightProbe = s.cb.inFlightProbe →
      Released ⟨cb, update s.running i p⟩ := by
    intro cb i p hi hcb hflag
    obtain ⟨k, hk⟩ := hs (hcb ▸ hflag)
    have hki : k ≠ i := fun h => hi (h ▸ hk)
    exact ⟨k, (update_of_ne hki ..).trans hk⟩
  cases h with
  | refuse => exact hs
  | pass hi => exact keep (by simp [hi]) rfl
  | probe => exact fun _ => ⟨_, update_self ..⟩
  | panic hi => exact keep (hl _ rfl) rfl
  | leave hi =>
    rename_i i p failed now
    cases p with
    | true =>
      intro hflag
      rw [recording_inFlightProbe] at hflag
      cases hflag
    | false => exact keep (by simp [hi]) (by simp [recording_inFlightProbe])

/-- As long as no probe panics, an idle breaker has its slot free, and it admits the next call once
the pause is over. -/
theorem idle_breaker_recovers (h : (machine config).Reach Calm (machine config).init t)
    (hidle : ∀ i, t.running i = none) :
    t.cb.inFlightProbe = false ∧ ∀ since now, t.cb.resetTimeout ≤ since - t.cb.lastFailTime →
      ∃ isProbe, (t.cb.admission since now).2 = .admitted isProbe := by
  have hreleased : t.Released :=
    h.invariant (fun hflag => by cases hflag) fun s l u hs hl hstep => hs.step (step_spec hstep) hl
  have hfree : t.cb.inFlightProbe = false := by
    by_contra hbusy
    obtain ⟨i, hi⟩ := hreleased (by simpa using hbusy)
    rw [hidle i] at hi
    cases hi
  refine ⟨hfree, fun since now hpause => ?_⟩
  cases hadm : t.cb.admission since now with
  | mk b a =>
    cases a with
    | admitted isProbe => exact ⟨isProbe, rfl⟩
    | rejected err =>
      rcases (admission_rejected hadm).2 with ⟨-, hlt⟩ | ⟨-, hbusy⟩
      · omega
      · rw [hfree] at hbusy
        cases hbusy

theorem failed_probe_leaves_slot_free :
    ∃ t, (machine ⟨1, 10⟩).exec (machine ⟨1, 10⟩).init
        [.enter 0 0 0, .leave 0 true 1, .enter 1 20 20, .leave 1 true 21] = some t ∧
      t.cb.inFlightProbe = false := by
  have hreach : (machine ⟨1, 10⟩).Reach Calm (machine ⟨1, 10⟩).init _ :=
    .tail (l := .leave 1 true 21) (.tail (l := .enter 1 20 20) (.tail (l := .leave 0 true 1)
      (.tail (l := .enter 0 0 0) .refl nofun rfl) nofun rfl) nofun rfl) nofun rfl
  refine ⟨_, rfl, (idle_breaker_recovers hreach fun i => ?_).1⟩
  match i with
  | 0 | 1 | _ + 2 => rfl

/-- The probe panics, and nothing ever gives its slot back. -/
theorem panicked_probe_blocks_breaker :
    ∃ t, (machine ⟨1, 10⟩).exec (machine ⟨1, 10⟩).init
        [.enter 0 0 0, .leave 0 true 1, .enter 1 20 20, .panic 1] = some t ∧
      (∀ i, t.running i = none) ∧ t.cb.inFlightProbe = true ∧
      ∀ since now, t.cb.admission since now = (t.cb, .rejected "circuit breaker is open") := by
  refine ⟨_, rfl, ?_, rfl, fun since now => rfl⟩
  intro i
  match i with
  | 0 | 1 | _ + 2 => rfl

end Calls

end Morf.Utils
