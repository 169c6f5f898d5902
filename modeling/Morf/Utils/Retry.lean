import Mathlib.Algebra.Order.Group.Int
import Mathlib.Order.MinMax
import Morf.Lib.Text

/-! Retrying an operation, after `utils/retry.go`.  How long the loop sleeps is left out; that its
context ends while it sleeps is not. -/

namespace Morf.Utils

open Morf.Lib

/-- What `IsRetryable` looks at: the sentinels an error wraps, the flag of a `*RetryableError` in
its chain, its dynamic type and its text. -/
structure Failure where
  nonRetryable : Bool := false
  retryable : Bool := false
  wrapped : Option Bool := none
  netError : Bool := false
  urlError : Bool := false
  text : String

def isRetryable (err : Failure) : Bool :=
  let mentions (subs : List String) (text : List Char) : Bool :=
    subs.any fun sub => Text.contains sub.toList text
  let lower := err.text.toList.map Text.toLower
  if err.nonRetryable then false
  else if err.retryable then true
  else
    match err.wrapped with
    | some flag => flag
    | none =>
      if err.netError then true
      else if mentions ["timeout", "deadline exceeded"] err.text.toList then true
      else if err.urlError then true
      else if mentions ["500", "502", "503", "504"] lower then true
      else if mentions ["400", "401", "403", "404", "422", "validation"] lower then false
      else false

section Loop

variable {σ α : Type} (ctxErr : Nat → Option Failure) (fn : σ → Except Failure α × σ)

/-- The loop of `RetryWithContext` at `attempt`, with so many attempts left after it.  `ctxErr` is
the state of the context when an attempt is due. -/
def retryFrom : (left attempt : Nat) → σ → Except Failure α × σ
  | left, attempt, s =>
    match ctxErr attempt with
    | some err => (.error err, s)
    | none =>
      match fn s with
      | (.ok a, s) => (.ok a, s)
      | (.error err, s) =>
        if isRetryable err then
          match left with
          | 0 => (.error err, s)
          | left + 1 => retryFrom left (attempt + 1) s
        else (.error err, s)

def retryWithContext (maxRetries : Nat) (s : σ) : Except Failure α × σ :=
  retryFrom ctxErr fn maxRetries 0 s

variable {ctxErr fn}

theorem retryFrom_ok (hctx : ctxErr attempt = none) (h : fn s = (.ok a, t)) :
    retryFrom ctxErr fn left attempt s = (.ok a, t) := by
  unfold retryFrom
  rw [hctx, h]

theorem retryFrom_stop (hctx : ctxErr attempt = none) (h : fn s = (.error err, t))
    (hr : isRetryable err = false) :
    retryFrom ctxErr fn left attempt s = (.error err, t) := by
  unfold retryFrom
  simp only [hctx, h, hr, Bool.false_eq_true, if_false]

theorem retryFrom_again (hctx : ctxErr attempt = none) (h : fn s = (.error err, t))
    (hr : isRetryable err = true) :
    retryFrom ctxErr fn (left + 1) attempt s = retryFrom ctxErr fn left (attempt + 1) t := by
  rw [retryFrom]
  simp only [hctx, h, hr, if_true]

theorem retryFrom_succeeds {I : Nat → σ → Prop} {Q : α → σ → Prop} (hctx : ∀ k, ctxErr k = none)
    (hfail : ∀ n s, I (n + 1) s → ∃ err t, fn s = (.error err, t) ∧ isRetryable err = true ∧ I n t)
    (hok : ∀ s, I 0 s → ∃ a t, fn s = (.ok a, t) ∧ Q a t) (hn : n ≤ left) (hs : I n s) :
    ∃ a t, retryFrom ctxErr fn left attempt s = (.ok a, t) ∧ Q a t := by
  induction n generalizing left attempt s with
  | zero =>
    obtain ⟨a, t, h, hQ⟩ := hok s hs
    exact ⟨a, t, retryFrom_ok (hctx attempt) h, hQ⟩
  | succ n ih =>
    obtain ⟨err, t, h, hr, ht⟩ := hfail n s hs
    cases left with
    | zero => exact absurd hn (Nat.not_succ_le_zero n)
    | succ left =>
      rw [retryFrom_again (hctx attempt) h hr]
      exact ih (Nat.le_of_succ_le_succ hn) ht

theorem retryFrom_safe {I : σ → Prop} {Q : α → σ → Prop}
    (hfail : ∀ s err t, I s → fn s = (.error err, t) → I t)
    (hok : ∀ s a t, I s → fn s = (.ok a, t) → Q a t) (hs : I s)
    (h : retryFrom ctxErr fn left attempt s = (.ok a, t)) : Q a t := by
  induction left generalizing attempt s with
  | zero =>
    unfold retryFrom at h
    split at h
    · cases h
    · split at h
      · cases h
        exact hok _ _ _ hs ‹_›
      · split at h <;> cases h
  | succ left ih =>
    rw [retryFrom] at h
    split at h
    · cases h
    · split at h
      · cases h
        exact hok _ _ _ hs ‹_›
      · split at h
        · exact ih (hfail _ _ _ hs ‹_›) h
        · cases h

end Loop

/-! `RetryWithContext` with its counter, its delays and its panics, under every configuration that
`DefaultRetryConfig` reads from the environment. -/

open Int64

/-- Durations are nanoseconds. -/
structure RetryConfig (F : Type) where
  maxRetries : Int64
  initialDelay : Int64
  maxDelay : Int64
  multiplier : F
  jitter : Bool

def Env : Type := String → Option (List Char)

/-- The parts of the standard library that the loop's delays depend on; nothing is assumed of
them.  `backoff initial multiplier n` is `time.Duration(float64(initial) * math.Pow(multiplier, n))`,
and `draw attempt q` is what `rand.Int63n(q)` returns. -/
structure Runtime (F : Type) where
  parseDuration : List Char → Option Int64
  parseFloat : List Char → Option F
  positive : F → Bool
  two : F
  backoff : Int64 → F → Int64 → Int64
  draw : Int64 → Int64 → Int64

namespace Config

def read {α : Type} (env : Env) (name : String) (parse : List Char → Option α) (default : α) : α :=
  ((env name).bind fun s => parse (Text.trimSpace s)).getD default

def int (env : Env) (name : String) (default : Int64) : Int64 :=
  read env name (fun s => (Text.atoi s).map ofInt) default

def parseBool (s : List Char) : Option Bool :=
  if s ∈ ["1".toList, "t".toList, "T".toList, "true".toList, "TRUE".toList, "True".toList] then
    some true
  else if s ∈ ["0".toList, "f".toList, "F".toList, "false".toList, "FALSE".toList, "False".toList] then
    some false
  else none

def bool (env : Env) (name : String) (default : Bool) : Bool := read env name parseBool default

variable (R : Runtime F)

def durationPositive (env : Env) (name : String) (default : Int64) : Int64 :=
  read env name (fun s => (R.parseDuration s).filter (0 < ·)) default

def floatPositive (env : Env) (name : String) (default : F) : F :=
  read env name (fun s => (R.parseFloat s).filter R.positive) default

end Config

variable (R : Runtime F)

def defaultRetryConfig (env : Env) : RetryConfig F where
  maxRetries := Config.int env "MORF_RETRY_MAX_RETRIES" 3
  initialDelay := Config.durationPositive R env "MORF_RETRY_INITIAL_DELAY" 1000000000
  maxDelay := Config.durationPositive R env "MORF_RETRY_MAX_DELAY" 30000000000
  multiplier := Config.floatPositive R env "MORF_RETRY_MULTIPLIER" R.two
  jitter := Config.bool env "MORF_RETRY_JITTER" true

inductive Panic
  | int63n
  | nilError
  deriving DecidableEq

/-- `rand.Int63n` panics unless its bound is positive. -/
def int63n (attempt q : Int64) : Except Panic Int64 :=
  if 0 < q then .ok (R.draw attempt q) else .error .int63n

def cappedDelay (config : RetryConfig F) (attempt : Int64) : Int64 :=
  let delay := R.backoff config.initialDelay config.multiplier (attempt - 1)
  if config.maxDelay < delay then config.maxDelay else delay

def retryDelay (config : RetryConfig F) (attempt : Int64) : Except Panic Int64 :=
  let delay := cappedDelay R config attempt
  if config.jitter then
    let q := delay / 4
    if 0 < q then (int63n R attempt q).map (delay + ·) else .ok delay
  else .ok delay

/-- The context as the loop finds it: when an attempt is due, and while it sleeps before one. -/
structure Context where
  due : Int64 → Option Failure := fun _ => none
  asleep : Int64 → Option Failure := fun _ => none

inductive Ending
  | returned (err : Option Failure)
  | panicked (p : Panic)

structure Ran where
  ending : Ending
  calls : Nat

variable (ctx : Context) (config : RetryConfig F) (outcome : Nat → Option Failure)

def pause (attempt : Int64) : Except Ending Unit :=
  if 0 < attempt then
    match retryDelay R config attempt with
    | .error p => .error (.panicked p)
    | .ok _ =>
      match ctx.asleep attempt with
      | some err => .error (.returned err)
      | none => .ok ()
  else .ok ()

/-- The loop of `RetryWithContext`; `outcome` are the errors of the operation, call by call. -/
def retryLoop : (fuel : Nat) → (attempt : Int64) → (calls : Nat) → (lastErr : Option Failure) →
    Option Ran
  | 0, _, _, _ => none
  | fuel + 1, attempt, calls, lastErr =>
    if attempt ≤ config.maxRetries then
      match ctx.due attempt with
      | some err => some ⟨.returned err, calls⟩
      | none =>
        match pause R ctx config attempt with
        | .error ending => some ⟨ending, calls⟩
        | .ok _ =>
          match outcome calls with
          | none => some ⟨.returned none, calls + 1⟩
          | some err =>
            if isRetryable err then retryLoop fuel (attempt + 1) (calls + 1) (some err)
            else some ⟨.returned err, calls + 1⟩
    else
      -- the message of the last error is logged, which needs one
      match lastErr with
      | none => some ⟨.panicked .nilError, calls⟩
      | some err => some ⟨.returned err, calls⟩

def worthRetry (err : Option Failure) : Bool := err.any isRetryable

structure Ran.Right (maxRetries : Int64) (outcome : Nat → Option Failure) (r : Ran) : Prop where
  called : 1 ≤ r.calls
  bounded : (r.calls : Int) ≤ max maxRetries.toInt 0 + 1
  stops : ∀ k, k + 1 < r.calls → worthRetry (outcome k) = true
  ending : r.ending = .returned (outcome (r.calls - 1))

variable {R ctx config outcome}

theorem retryDelay_ok (config : RetryConfig F) (attempt : Int64) :
    ∃ d, retryDelay R config attempt = .ok d := by
  simp only [retryDelay]
  split
  · split
    · rename_i hq
      rw [int63n, if_pos hq]
      exact ⟨_, rfl⟩
    · exact ⟨_, rfl⟩
  · exact ⟨_, rfl⟩

theorem pause_ok (config : RetryConfig F) (attempt : Int64) : pause R {} config attempt = .ok () := by
  obtain ⟨d, hd⟩ := retryDelay_ok (R := R) config attempt
  rw [pause, hd]
  exact ite_self _

theorem retryLoop_attempt (h : attempt ≤ config.maxRetries) (fuel calls : Nat)
    (lastErr : Option Failure) :
    retryLoop R {} config outcome (fuel + 1) attempt calls lastErr =
      match outcome calls with
      | none => some ⟨.returned none, calls + 1⟩
      | some err =>
        if isRetryable err then
          retryLoop R {} config outcome fuel (attempt + 1) (calls + 1) (some err)
        else some ⟨.returned err, calls + 1⟩ := by
  simp only [retryLoop, if_pos h, pause_ok]

def attemptOf (outcome : Nat → Option Failure) (calls : Nat) : Except Failure Unit × Nat :=
  match outcome calls with
  | none => (.ok (), calls + 1)
  | some err => (.error err, calls + 1)

def Ran.of : Except Failure Unit × Nat → Ran
  | (.ok _, calls) => ⟨.returned none, calls⟩
  | (.error err, calls) => ⟨.returned err, calls⟩

theorem toInt_add_one {n : Int64} (h : n.toInt < 2 ^ 63 - 1) : (n + 1).toInt = n.toInt + 1 := by
  rw [toInt_add, toInt_one, Int.bmod_eq_of_le]
  · have := n.le_toInt
    omega
  · omega

section Simulation

variable {attempt : Int64} {calls left : Nat}

theorem attemptOf_error (h : outcome calls = some err) :
    attemptOf outcome calls = (.error err, calls + 1) := by
  rw [attemptOf, h]

theorem retryFrom_last (h : worthRetry (outcome calls) = false ∨ left = 0) :
    Ran.of (retryFrom (fun _ => none) (attemptOf outcome) left calls calls) =
      ⟨.returned (outcome calls), calls + 1⟩ := by
  cases ho : outcome calls with
  | none =>
    have hfn : attemptOf outcome calls = (.ok (), calls + 1) := by rw [attemptOf, ho]
    rw [retryFrom_ok rfl hfn]
    rfl
  | some err =>
    cases hr : isRetryable err with
    | false =>
      rw [retryFrom_stop rfl (attemptOf_error ho) hr]
      rfl
    | true =>
      obtain rfl : left = 0 := h.resolve_left (by simp [worthRetry, ho, hr])
      rw [retryFrom]
      simp only [attemptOf_error ho, hr, if_true]
      rfl

theorem retryLoop_last (hle : attempt ≤ config.maxRetries) (h : worthRetry (outcome calls) = false)
    (fuel : Nat) (lastErr : Option Failure) : retryLoop R {} config outcome (fuel + 1) attempt calls lastErr =
      some ⟨.returned (outcome calls), calls + 1⟩ := by
  rw [retryLoop_attempt hle]
  cases ho : outcome calls with
  | none => rfl
  | some err =>
    have hr : isRetryable err = false := by rwa [ho] at h
    simp only [hr, Bool.false_eq_true, if_false]

theorem retryLoop_eq_retryFrom (lastErr : Option Failure) (hattempt : attempt.toInt = calls)
    (hleft : config.maxRetries.toInt = calls + left)
    (hend : config.maxRetries.toInt < 2 ^ 63 - 1 ∨
      ∃ k, calls ≤ k ∧ k ≤ calls + left ∧ worthRetry (outcome k) = false) :
    ∃ fuel, retryLoop R {} config outcome fuel attempt calls lastErr =
      some (.of (retryFrom (fun _ => none) (attemptOf outcome) left calls calls)) := by
  induction left generalizing attempt calls lastErr with
  | zero =>
    have hle : attempt ≤ config.maxRetries := le_iff_toInt_le.mpr (by omega)
    rw [retryFrom_last (.inr rfl)]
    cases hw : worthRetry (outcome calls) with
    | false => exact ⟨1, retryLoop_last hle hw 0 lastErr⟩
    | true =>
      obtain ⟨err, ho, hr⟩ := (Option.any_eq_true _ _).mp hw
      -- the counter stands at the last attempt that is allowed
      have hlast : config.maxRetries.toInt < 2 ^ 63 - 1 := by
        refine hend.resolve_right ?_
        rintro ⟨k, hk, hk', hstop⟩
        obtain rfl : k = calls := Nat.le_antisymm hk' hk
        rw [hw] at hstop
        cases hstop
      have hover : ¬ attempt + 1 ≤ config.maxRetries := by
        rw [le_iff_toInt_le, toInt_add_one (by omega)]
        omega
      refine ⟨2, ?_⟩
      rw [retryLoop_attempt hle]
      simp only [ho, hr, if_true, retryLoop, if_neg hover]
  | succ left ih =>
    have hle : attempt ≤ config.maxRetries := le_iff_toInt_le.mpr (by omega)
    cases hw : worthRetry (outcome calls) with
    | false =>
      rw [retryFrom_last (.inl hw)]
      exact ⟨1, retryLoop_last hle hw 0 lastErr⟩
    | true =>
      obtain ⟨err, ho, hr⟩ := (Option.any_eq_true _ _).mp hw
      have hmax := config.maxRetries.toInt_lt
      have hnext : (attempt + 1).toInt = ((calls + 1 : Nat) : Int) := by
        rw [toInt_add_one (by omega)]
        omega
      have hend' : config.maxRetries.toInt < 2 ^ 63 - 1 ∨
          ∃ k, calls + 1 ≤ k ∧ k ≤ calls + 1 + left ∧ worthRetry (outcome k) = false := by
        refine hend.imp_right ?_
        rintro ⟨k, hk, hk', hstop⟩
        have hne : k ≠ calls := by
          rintro rfl
          rw [hw] at hstop
          cases hstop
        exact ⟨k, by omega, by omega, hstop⟩
      obtain ⟨fuel, hfuel⟩ := ih (some err) hnext (by omega) hend'
      refine ⟨fuel + 1, ?_⟩
      rw [retryLoop_attempt hle, retryFrom_again rfl (attemptOf_error ho) hr]
      simp only [ho, hr, if_true, hfuel]

structure Ran.Onward (outcome : Nat → Option Failure) (calls left : Nat) (r : Ran) : Prop where
  called : calls < r.calls
  bounded : r.calls ≤ calls + left + 1
  stops : ∀ k, k + 1 < r.calls → worthRetry (outcome k) = true
  ending : r.ending = .returned (outcome (r.calls - 1))

theorem Ran.onward_last (hbefore : ∀ k < calls, worthRetry (outcome k) = true) (left : Nat) :
    Ran.Onward outcome calls left ⟨.returned (outcome calls), calls + 1⟩ where
  called := Nat.lt_succ_self calls
  bounded := Nat.succ_le_succ (Nat.le_add_right calls left)
  stops k hk := hbefore k (Nat.succ_lt_succ_iff.mp hk)
  ending := rfl

theorem retryFrom_onward (hbefore : ∀ k < calls, worthRetry (outcome k) = true) (left : Nat) :
    (Ran.of (retryFrom (fun _ => none) (attemptOf outcome) left calls calls)).Onward outcome calls left := by
  induction left generalizing calls with
  | zero =>
    rw [retryFrom_last (.inr rfl)]
    exact Ran.onward_last hbefore 0
  | succ left ih =>
    cases hw : worthRetry (outcome calls) with
    | false =>
      rw [retryFrom_last (.inl hw)]
      exact Ran.onward_last hbefore _
    | true =>
      obtain ⟨err, ho, hr⟩ := (Option.any_eq_true _ _).mp hw
      have hbefore' : ∀ k < calls + 1, worthRetry (outcome k) = true := fun k hk =>
        (Nat.lt_succ_iff_lt_or_eq.mp hk).elim (hbefore k) fun h => h ▸ hw
      rw [retryFrom_again rfl (attemptOf_error ho) hr]
      obtain ⟨hcalled, hbounded, hstops, hending⟩ := ih hbefore'
      exact ⟨by omega, by omega, hstops, hending⟩

end Simulation

theorem retryLoop_endless (hmax : config.maxRetries = maxValue)
    (h : retryLoop R {} config outcome fuel attempt calls lastErr = some r) :
    ∃ k, r.calls = k + 1 ∧ worthRetry (outcome k) = false := by
  induction fuel generalizing attempt calls lastErr with
  | zero => cases h
  | succ fuel ih =>
    have hle : attempt ≤ config.maxRetries := hmax ▸ le_maxValue attempt
    cases hw : worthRetry (outcome calls) with
    | false =>
      rw [retryLoop_last hle hw] at h
      cases h
      exact ⟨calls, rfl, hw⟩
    | true =>
      obtain ⟨err, ho, hr⟩ := (Option.any_eq_true _ _).mp hw
      rw [retryLoop_attempt hle] at h
      simp only [ho, hr, if_true] at h
      exact ih h

theorem retryLoop_negative (hneg : config.maxRetries < 0) (fuel : Nat) :
    retryLoop R ctx config outcome (fuel + 1) 0 0 none = some ⟨.panicked .nilError, 0⟩ := by
  rw [retryLoop, if_neg (Int64.not_le.mpr hneg)]

variable (R outcome) in
def retryDefault (env : Env) (fuel : Nat) : Option Ran :=
  retryLoop R {} (defaultRetryConfig R env) outcome fuel 0 0 none

/-- The operation is called the right number of times exactly if the environment does not ask for a
negative number of retries, and either not for the largest one or the operation stops the loop
before its counter wraps around. -/
theorem retry_right_iff (env : Env) :
    (∃ fuel r, retryDefault R outcome env fuel = some r ∧
        r.Right (defaultRetryConfig R env).maxRetries outcome) ↔
      0 ≤ (defaultRetryConfig R env).maxRetries ∧
        ((defaultRetryConfig R env).maxRetries ≠ maxValue ∨
          ∃ k, k < 2 ^ 63 ∧ worthRetry (outcome k) = false) := by
  generalize hconfig : defaultRetryConfig R env = config
  simp only [retryDefault, hconfig]
  constructor
  · rintro ⟨fuel, r, hr, hright⟩
    refine ⟨?_, ?_⟩
    · by_contra hneg
      cases fuel with
      | zero => cases hr
      | succ fuel =>
        rw [retryLoop_negative (Int64.not_le.mp hneg)] at hr
        cases hr
        cases hright.ending
    · refine or_iff_not_imp_left.mpr fun hmax => ?_
      have hmax := not_not.mp hmax
      obtain ⟨k, hk, hstop⟩ := retryLoop_endless hmax hr
      have hbounded := hright.bounded
      rw [hmax, toInt_maxValue] at hbounded
      refine ⟨k, ?_, hstop⟩
      omega
  · rintro ⟨hnonneg, hend⟩
    obtain ⟨m, hm⟩ := Int.eq_ofNat_of_zero_le (le_iff_toInt_le.mp hnonneg)
    have hend' : config.maxRetries.toInt < 2 ^ 63 - 1 ∨
        ∃ k, 0 ≤ k ∧ k ≤ 0 + m ∧ worthRetry (outcome k) = false := by
      have hlt := config.maxRetries.toInt_lt
      by_cases hmax : config.maxRetries = maxValue
      · obtain ⟨k, hk, hstop⟩ := hend.resolve_left fun h => h hmax
        have hm' : (m : Int) = 2 ^ 63 - 1 := by rw [← hm, hmax, toInt_maxValue]
        exact .inr ⟨k, Nat.zero_le k, by omega, hstop⟩
      · have hne : config.maxRetries.toInt ≠ 2 ^ 63 - 1 := fun h =>
          hmax (toInt_inj.mp (h.trans toInt_maxValue.symm))
        exact .inl (by omega)
    have hzero : (0 : Int64).toInt = ((0 : Nat) : Int) := rfl
    have hleft : config.maxRetries.toInt = ((0 : Nat) : Int) + m := by rw [hm, Int.natCast_zero, Int.zero_add]
    obtain ⟨fuel, hfuel⟩ := retryLoop_eq_retryFrom (R := R) none hzero hleft hend'
    have hbefore : ∀ k < 0, worthRetry (outcome k) = true := nofun
    obtain ⟨hcalled, hbounded, hstops, hending⟩ := retryFrom_onward hbefore m
    refine ⟨fuel, _, hfuel, hcalled, ?_, hstops, hending⟩
    omega

def negativeRetries : Env := fun name => if name = "MORF_RETRY_MAX_RETRIES" then some "-1".toList else none

def idleRuntime : Runtime Unit where
  parseDuration _ := none
  parseFloat _ := none
  positive _ := false
  two := ()
  backoff initial _ _ := initial
  draw _ _ := 0

/-- The operation would succeed.  It is not called at all, and the message of no error is asked
for. -/
theorem negative_retries_panic :
    retryDefault idleRuntime (fun _ => none) negativeRetries 1 = some ⟨.panicked .nilError, 0⟩ :=
  retryLoop_negative (by decide) 0

end Morf.Utils
