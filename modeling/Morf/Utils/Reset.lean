import Morf.Utils.CircuitBreaker

/-! `Reset` of the circuit breaker, and when the breaker behaves from then on as a new one. -/

namespace Morf.Utils

open Morf.Lib
open List Function Option CircuitBreaker

def Transition.announced (t : Transition) : Option (CircuitState × CircuitState) :=
  if t.changed then some (t.old, t.new) else none

def CircuitBreaker.reset (cb : CircuitBreaker) : CircuitBreaker × Transition :=
  let (cb, transition) := cb.setState .stateClosed
  ({ cb with inFlightProbe := false }, transition)

structure Seen where
  admission : Option Admission := none
  change : Option (CircuitState × CircuitState) := none
  deriving DecidableEq

namespace Calls

def seen (s : Calls) : CallLabel → Seen
  | .enter _ since now =>
    { admission := some (s.cb.admission since now).2
      change :=
        match s.cb.state, (s.cb.admission since now).2 with
        | .stateOpen, .admitted _ => (s.cb.setState .stateHalfOpen).2.announced
        | _, _ => none }
  | .leave i failed now =>
    { change := (s.running i).bind fun isProbe => (s.cb.recording isProbe failed now).2.announced }
  | .panic _ => {}

/-- What can be seen of a run.  Labels that do not apply are passed over. -/
def watch : Calls → List CallLabel → List Seen
  | _, [] => []
  | s, l :: ls =>
    match s.step l with
    | none => watch s ls
    | some t => s.seen l :: watch t ls

def reset (s : Calls) : Calls := { s with cb := s.cb.reset.1 }

end Calls

/-- The time of the last failure matters only while the breaker is open. -/
def CircuitBreaker.failedAt (cb : CircuitBreaker) (time : Int) : CircuitBreaker :=
  { cb with lastFailTime := time }

namespace CircuitBreaker

variable {cb : CircuitBreaker}

theorem admission_failedAt (h : cb.state ≠ .stateOpen) (since now time : Int) :
    (cb.failedAt time).admission since now =
        ((cb.admission since now).1.failedAt time, (cb.admission since now).2) ∧
      (cb.admission since now).1.state = cb.state := by
  obtain ⟨maxFailures, resetTimeout, state, failureCount, lastFailTime, inFlightProbe⟩ := cb
  cases state with
  | stateOpen => exact absurd rfl h
  | stateClosed => exact ⟨rfl, rfl⟩
  | stateHalfOpen => cases inFlightProbe <;> exact ⟨rfl, rfl⟩

theorem recording_failed (isProbe : Bool) (now time : Int) :
    (cb.failedAt time).recording isProbe true now = cb.recording isProbe true now := by
  cases isProbe <;> rfl

theorem recording_succeeded (isProbe : Bool) (h : cb.state ≠ .stateOpen) (now time : Int) :
    (cb.failedAt time).recording isProbe false now =
        ((cb.recording isProbe false now).1.failedAt time, (cb.recording isProbe false now).2) ∧
      (cb.recording isProbe false now).1.state ≠ .stateOpen := by
  obtain ⟨maxFailures, resetTimeout, state, failureCount, lastFailTime, inFlightProbe⟩ := cb
  cases state with
  | stateOpen => exact absurd rfl h
  | stateClosed => cases isProbe <;> exact ⟨rfl, nofun⟩
  | stateHalfOpen => cases isProbe <;> exact ⟨rfl, nofun⟩

end CircuitBreaker

namespace Calls

def Alike (s t : Calls) : Prop :=
  s = t ∨ t.cb.state ≠ .stateOpen ∧ ∃ time, s = { t with cb := t.cb.failedAt time }

variable {config : Config} {s t : Calls} {l : CallLabel}

theorem Alike.seen_eq (h : s.Alike t) (l : CallLabel) : s.seen l = t.seen l := by
  rcases h with rfl | ⟨hopen, time, rfl⟩
  · rfl
  cases l with
  | enter i since now =>
    have hadm := admission_failedAt hopen since now time
    simp only [seen, hadm]
    congr 1
    have hstate : (t.cb.failedAt time).state = t.cb.state := rfl
    rw [hstate]
    split
    · exact absurd ‹_› hopen
    · rfl
  | leave i failed now =>
    simp only [seen]
    congr 2
    funext isProbe
    cases failed with
    | true => rw [recording_failed]
    | false => rw [(recording_succeeded isProbe hopen now time).1]
  | panic i => rfl

theorem Alike.step (h : s.Alike t) (l : CallLabel) : Option.Rel Alike (s.step l) (t.step l) := by
  rcases h with rfl | ⟨hopen, time, rfl⟩
  · cases hl : s.step l with
    | none => exact .none
    | some t => exact .some (.inl rfl)
  cases l with
  | enter i since now =>
    obtain ⟨hadm, hstate⟩ := admission_failedAt hopen since now time
    simp only [Calls.step, hadm]
    cases t.running i with
    | some p => exact .none
    | none =>
      rcases hcb : t.cb.admission since now with ⟨b, err | isProbe⟩ <;> rw [hcb] at hstate <;>
        exact .some (.inr ⟨fun h => hopen (hstate ▸ h), time, rfl⟩)
  | leave i failed now =>
    simp only [Calls.step]
    cases t.running i with
    | none => exact .none
    | some isProbe =>
      cases failed with
      | true => exact .some (.inl (by simp only [recording_failed]))
      | false =>
        obtain ⟨hrec, hnext⟩ :=
          recording_succeeded isProbe hopen now time
        exact .some (.inr ⟨hnext, time, by simp only [hrec]⟩)
  | panic i =>
    simp only [Calls.step]
    cases t.running i with
    | none => exact .none
    | some isProbe => exact .some (.inr ⟨hopen, time, rfl⟩)

theorem Alike.watch_eq (h : s.Alike t) (ls : List CallLabel) : s.watch ls = t.watch ls := by
  induction ls generalizing s t with
  | nil => rfl
  | cons l ls ih =>
    have hstep := h.step l
    rw [watch, watch]
    cases hs : s.step l with
    | none =>
      cases ht : t.step l with
      | none => exact ih h
      | some t' => rw [hs, ht] at hstep; cases hstep
    | some s' =>
      cases ht : t.step l with
      | none => rw [hs, ht] at hstep; cases hstep
      | some t' =>
        rw [hs, ht] at hstep
        cases hstep with
        | some hst => exact congrArg₂ _ (h.seen_eq l) (ih hst)

structure Counted (config : Config) (cb : CircuitBreaker) : Prop where
  maxFailures : cb.maxFailures = (newCircuitBreaker config).maxFailures
  resetTimeout : cb.resetTimeout = (newCircuitBreaker config).resetTimeout
  nonneg : 0 ≤ cb.failureCount
  closed : cb.state = .stateClosed → cb.failureCount < cb.maxFailures

theorem counted_new (config : Config) : Counted config (newCircuitBreaker config) where
  maxFailures := rfl
  resetTimeout := rfl
  nonneg := Int.le_refl 0
  closed _ := by
    change 0 < (newCircuitBreaker config).maxFailures
    simp only [newCircuitBreaker]
    split <;> omega

section Counted

variable {cb : CircuitBreaker} {now : Int}

theorem Counted.admission (h : Counted config cb) (since now : Int) :
    Counted config (cb.admission since now).1 := by
  unfold CircuitBreaker.admission
  split
  · rename_i hst
    split
    · exact h
    · simp only [setState, hst]
      exact ⟨h.maxFailures, h.resetTimeout, h.nonneg, by rintro ⟨⟩⟩
  · split
    · exact h
    · exact ⟨h.maxFailures, h.resetTimeout, h.nonneg, h.closed⟩
  · exact h

theorem Counted.recordFailure (h : Counted config cb) : Counted config (cb.recordFailure now).1 := by
  have hnonneg : 0 ≤ cb.failureCount + 1 := Int.le_add_one h.nonneg
  have hopen : ∀ b : CircuitBreaker, b.maxFailures = cb.maxFailures →
      b.resetTimeout = cb.resetTimeout → b.failureCount = cb.failureCount + 1 →
      Counted config (b.setState .stateOpen).1 := by
    intro b hmax hreset hcount
    rw [setState]
    split
    · rename_i hst
      exact ⟨hmax.trans h.maxFailures, hreset.trans h.resetTimeout, hcount ▸ hnonneg,
        fun hclosed => by cases hst.symm.trans hclosed⟩
    · exact ⟨hmax.trans h.maxFailures, hreset.trans h.resetTimeout, hcount ▸ hnonneg, by rintro ⟨⟩⟩
  simp only [CircuitBreaker.recordFailure]
  split
  · exact hopen _ rfl rfl rfl
  · split
    · exact hopen _ rfl rfl rfl
    · exact ⟨h.maxFailures, h.resetTimeout, hnonneg, fun _ => Int.not_le.mp ‹_›⟩

theorem Counted.recordSuccess (h : Counted config cb) : Counted config cb.recordSuccess.1 := by
  have hmax : 0 < cb.maxFailures := h.maxFailures ▸ (counted_new config).closed rfl
  rw [CircuitBreaker.recordSuccess]
  split
  · rename_i hst
    simp only [CircuitBreaker.setState, hst]
    exact ⟨h.maxFailures, h.resetTimeout, Int.le_refl 0, fun _ => hmax⟩
  · exact ⟨h.maxFailures, h.resetTimeout, Int.le_refl 0, fun _ => hmax⟩

theorem Counted.recording (h : Counted config cb) (isProbe failed : Bool) :
    Counted config (cb.recording isProbe failed now).1 := by
  have hprobe : Counted config (if isProbe then { cb with inFlightProbe := false } else cb) := by
    cases isProbe with
    | true => exact ⟨h.maxFailures, h.resetTimeout, h.nonneg, h.closed⟩
    | false => exact h
  rw [CircuitBreaker.recording]
  cases failed with
  | true => exact hprobe.recordFailure
  | false => exact hprobe.recordSuccess

end Counted

theorem Counted.step (h : Counted config s.cb) (hstep : s.step l = some t) : Counted config t.cb := by
  cases l with
  | enter i since now =>
    have hadm := h.admission since now
    simp only [Calls.step] at hstep
    split at hstep
    · cases hstep
    · rename_i hcb
      cases hstep
      rwa [hcb] at hadm
    · rename_i hcb
      cases hstep
      rwa [hcb] at hadm
  | leave i failed now =>
    obtain ⟨isProbe, -, rfl⟩ := map_eq_some_iff.mp hstep
    exact h.recording isProbe failed
  | panic i =>
    obtain ⟨isProbe, -, rfl⟩ := map_eq_some_iff.mp hstep
    exact h

def failing : Nat → List CallLabel
  | 0 => []
  | n + 1 => .enter 0 0 0 :: .leave 0 true 0 :: failing n

theorem watch_failing (hidle : ∀ i, s.running i = none) (hclosed : s.cb.state = .stateClosed) (n : Nat) :
    s.watch (failing (n + 1)) =
      { admission := some (.admitted false) } ::
        { change := (s.cb.recordFailure 0).2.announced } ::
          ({ s with cb := (s.cb.recordFailure 0).1 } : Calls).watch (failing n) := by
  have hadm : s.cb.admission 0 0 = (s.cb, .admitted false) := by
    rw [admission, hclosed]
  have hback : Function.update (Function.update s.running 0 (some false)) 0 none = s.running := by
    rw [update_idem, ← hidle 0, update_eq_self]
  simp only [failing, watch, seen, step, hidle, hadm, hclosed, update_self, map_some,
    bind_some, hback]
  rfl

def countFailure (s : Calls) : Calls :=
  { s with cb := { s.cb with failureCount := s.cb.failureCount + 1, lastFailTime := 0 } }

theorem watch_failing_quiet (hidle : ∀ i, s.running i = none) (hclosed : s.cb.state = .stateClosed)
    (hcount : s.cb.failureCount + 1 < s.cb.maxFailures) (n : Nat) :
    s.watch (failing (n + 1)) =
      { admission := some (.admitted false) } :: {} :: s.countFailure.watch (failing n) := by
  have hfail : s.cb.recordFailure 0 =
      (s.countFailure.cb, ⟨s.cb.state, s.cb.state, false⟩) := by
    have hhalf : s.cb.state ≠ .stateHalfOpen := fun h => by cases hclosed.symm.trans h
    simp only [recordFailure]
    rw [if_neg hhalf, if_neg (Int.not_le.mpr hcount)]
    rfl
  rw [watch_failing hidle hclosed, hfail]
  rfl

theorem failing_quiet (hidle : ∀ i, s.running i = none) (hclosed : s.cb.state = .stateClosed) (n : Nat)
    (hn : s.cb.failureCount + n < s.cb.maxFailures) : ∀ o ∈ s.watch (failing n), o.change = none := by
  induction n generalizing s with
  | zero => exact fun o ho => absurd ho not_mem_nil
  | succ n ih =>
    rw [watch_failing_quiet hidle hclosed (by omega)]
    have hnext : s.countFailure.cb.failureCount + n < s.cb.maxFailures := by
      simp only [countFailure]
      omega
    exact forall_mem_cons.mpr ⟨rfl, forall_mem_cons.mpr ⟨rfl, ih hidle hclosed hnext⟩⟩

theorem failing_opens (hidle : ∀ i, s.running i = none) (hclosed : s.cb.state = .stateClosed) (n : Nat)
    (hcount : s.cb.failureCount < s.cb.maxFailures) (hn : s.cb.maxFailures ≤ s.cb.failureCount + n) :
    ∃ o ∈ s.watch (failing n), o.change ≠ none := by
  induction n generalizing s with
  | zero => omega
  | succ n ih =>
    by_cases hopens : s.cb.maxFailures ≤ s.cb.failureCount + 1
    · rw [watch_failing hidle hclosed]
      refine ⟨_, mem_cons_of_mem _ mem_cons_self, ?_⟩
      simp only [recordFailure, hclosed, setState]
      rw [if_neg (by rintro ⟨⟩), if_pos hopens]
      rintro ⟨⟩
    · rw [watch_failing_quiet hidle hclosed (Int.not_le.mp hopens)]
      have hnext : s.cb.maxFailures ≤ s.countFailure.cb.failureCount + n := by
        simp only [countFailure]
        omega
      obtain ⟨o, ho, hchange⟩ :=
        ih (s := s.countFailure) hidle hclosed (Int.not_le.mp hopens) hnext
      exact ⟨o, mem_cons_of_mem _ (mem_cons_of_mem _ ho), hchange⟩

/-- After calls that have all returned, a breaker that is reset behaves as a new one exactly if it
was not closed, or had no failure to forget. -/
theorem reset_fresh_iff (h : (machine config).Reach Machine.anyStep (machine config).init s)
    (hidle : ∀ i, s.running i = none) :
    (∀ ls, s.reset.watch ls = (machine config).init.watch ls) ↔
      s.cb.state ≠ .stateClosed ∨ s.cb.failureCount = 0 := by
  have hcounted : Counted config s.cb :=
    h.invariant (I := fun s => Counted config s.cb) (counted_new config)
      fun _ _ _ hs _ hstep => hs.step hstep
  constructor
  · intro hwatch
    by_contra hleft
    obtain ⟨hclosed, hcount⟩ := not_or.mp hleft
    have hclosed : s.cb.state = .stateClosed := not_not.mp hclosed
    have hmax := hcounted.closed hclosed
    have hnonneg := hcounted.nonneg
    have hreset : s.cb.reset.1 = { s.cb with inFlightProbe := false } := by
      simp only [CircuitBreaker.reset, CircuitBreaker.setState, hclosed, if_true]
    -- so many failures open the breaker that remembers some, and not the new one
    obtain ⟨n, hn⟩ := Int.eq_ofNat_of_zero_le (Int.sub_nonneg.mpr (Int.le_of_lt hmax))
    have hopens : ∃ o ∈ s.reset.watch (failing n), o.change ≠ none := by
      refine failing_opens (s := s.reset) hidle ?_ n ?_ ?_ <;> simp only [reset, hreset]
      · exact hclosed
      · exact hmax
      · omega
    obtain ⟨o, ho, hchange⟩ := hopens
    refine hchange (failing_quiet (s := (machine config).init) (fun _ => rfl) rfl n ?_ o (hwatch _ ▸ ho))
    change 0 + (n : Int) < (newCircuitBreaker config).maxFailures
    rw [← hcounted.maxFailures]
    omega
  · intro hleft ls
    have hreset : s.cb.reset.1 = (newCircuitBreaker config).failedAt s.cb.lastFailTime := by
      obtain ⟨⟨maxFailures, resetTimeout, state, failureCount, lastFailTime, inFlightProbe⟩, running⟩ := s
      obtain ⟨rfl, rfl, -, -⟩ := hcounted
      cases state with
      | stateOpen => rfl
      | stateHalfOpen => rfl
      | stateClosed =>
        obtain rfl : failureCount = 0 := hleft.resolve_left fun h => h rfl
        rfl
    have hrunning : s.running = (machine config).init.running := funext hidle
    have halike : s.reset.Alike (machine config).init := by
      refine .inr ⟨by rintro ⟨⟩, s.cb.lastFailTime, ?_⟩
      rw [reset, hreset, hrunning]
      rfl
    exact halike.watch_eq ls

/-- A probe has failed, and the breaker is open when it is reset. -/
theorem open_breaker_reset_fresh :
    ∃ s, (machine ⟨1, 10⟩).exec (machine ⟨1, 10⟩).init
        [.enter 0 0 0, .leave 0 true 1, .enter 1 20 20, .leave 1 true 21] = some s ∧
      s.cb.lastFailTime = 21 ∧ ∀ ls, s.reset.watch ls = (machine ⟨1, 10⟩).init.watch ls := by
  refine ⟨_, rfl, rfl, (reset_fresh_iff (Machine.reach_of_exec
    [.enter 0 0 0, .leave 0 true 1, .enter 1 20 20, .leave 1 true 21] rfl) fun i => ?_).mpr (.inl nofun)⟩
  match i with
  | 0 | 1 | _ + 2 => rfl

/-- One of two failures that open the breaker comes before the reset.  The closed breaker still
counts it, and opens at the first failure after the reset. -/
theorem reset_remembers_failure :
    ∃ s, (machine ⟨2, 10⟩).exec (machine ⟨2, 10⟩).init [.enter 0 0 0, .leave 0 true 1] = some s ∧
      (∀ i, s.running i = none) ∧ s.reset.cb.failureCount = 1 ∧
      s.reset.watch [.enter 0 5 5, .leave 0 true 6, .enter 0 7 7] =
        [{ admission := some (.admitted false) }, { change := some (.stateClosed, .stateOpen) },
          { admission := some (.rejected "circuit breaker is open") }] ∧
      (machine ⟨2, 10⟩).init.watch [.enter 0 5 5, .leave 0 true 6, .enter 0 7 7] =
        [{ admission := some (.admitted false) }, {}, { admission := some (.admitted false) }] := by
  refine ⟨_, rfl, fun i => ?_, rfl, by decide, by decide⟩
  match i with
  | 0 | _ + 1 => rfl

end Calls

end Morf.Utils
