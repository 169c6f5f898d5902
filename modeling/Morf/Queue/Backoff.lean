import Mathlib.Algebra.Group.Nat.Defs
import Mathlib.Algebra.Order.Ring.Int
import Mathlib.Tactic.Ring

/-! The delay before a job is retried, `retryBackoff` of `worker/worker.go`. -/

namespace Morf.Queue.Backoff

def second : Int64 := 1000000000

/-- The loop, with the number of rounds that are left. -/
def doubled (max d : Int64) : Nat → Int64
  | 0 => if max < d then max else d
  | rounds + 1 => if max ≤ d * 2 then max else doubled max (d * 2) rounds

def retryBackoff (workerRetryBase workerRetryMaxDur : Int64) (retryCount : Int) : Int64 :=
  let base := if workerRetryBase ≤ 0 then 2 * second else workerRetryBase
  let max := if workerRetryMaxDur ≤ 0 then 30 * second else workerRetryMaxDur
  doubled max base (retryCount - 1).toNat

variable {max d : Int64}

theorem mul_pow_succ (x : Int) (i : Nat) : x * 2 ^ (i + 1) = x * 2 * 2 ^ i := by ring

theorem le_mul_pow {x : Int} (hx : 0 ≤ x) (i : Nat) : x ≤ x * 2 ^ i :=
  le_mul_of_one_le_right hx (one_le_pow₀ (by decide))

theorem toInt_double (d : Int64) : (d * 2).toInt = (d.toInt * 2).bmod (2 ^ 64) := by
  rw [Int64.toInt_mul]
  rfl

theorem toInt_double_of_lt (hd : 0 < d.toInt) (h : d.toInt * 2 < 2 ^ 63) : (d * 2).toInt = d.toInt * 2 := by
  rw [toInt_double, Int.bmod_eq_of_le (by omega) (by omega)]

theorem toInt_double_neg (h : 2 ^ 63 ≤ d.toInt * 2) : (d * 2).toInt < 0 := by
  have hlt := d.toInt_lt
  rw [toInt_double, Int.bmod_def]
  split <;> omega

/-- No power of two of `d` leaves the type before it reaches the maximum. -/
def Fits (max d : Int) : Prop := ∀ i : Nat, i = 0 ∨ d * 2 ^ i < max → d * 2 ^ (i + 1) < 2 ^ 63

theorem doubled_of_fits (hd : 0 < d.toInt) (h : Fits max.toInt d.toInt) (rounds : Nat) :
    (doubled max d rounds).toInt = min (d.toInt * 2 ^ rounds) max.toInt := by
  induction rounds generalizing d with
  | zero =>
    rw [doubled]
    split
    · rename_i hlt
      have := Int64.lt_iff_toInt_lt.mp hlt
      omega
    · rename_i hlt
      have := mt Int64.lt_iff_toInt_lt.mpr hlt
      omega
  | succ rounds ih =>
    have hdouble := toInt_double_of_lt hd (by simpa using h 0 (.inl rfl))
    rw [doubled, mul_pow_succ, ← hdouble]
    split
    · rename_i hle
      have hpow := le_mul_pow (x := (d * 2).toInt) (by omega) rounds
      have := Int64.le_iff_toInt_le.mp hle
      omega
    · rename_i hlt
      have hlt := mt Int64.le_iff_toInt_le.mpr hlt
      refine ih (by omega) fun i hi => ?_
      have hnext := h (i + 1)
      rw [mul_pow_succ, mul_pow_succ _ (i + 1), ← hdouble] at hnext
      refine hnext (.inr ?_)
      rcases hi with rfl | hi
      · omega
      · exact hi

theorem doubled_neg (hd : 0 < d.toInt) (hmax : 0 < max.toInt) (i : Nat)
    (hi : i = 0 ∨ d.toInt * 2 ^ i < max.toInt) (h : 2 ^ 63 ≤ d.toInt * 2 ^ (i + 1)) :
    (doubled max d (i + 1)).toInt < 0 := by
  induction i generalizing d with
  | zero =>
    have hneg := toInt_double_neg (d := d) (by simpa using h)
    have hle : ¬ max ≤ d * 2 := by
      rw [Int64.le_iff_toInt_le]
      omega
    have hlt : ¬ max < d * 2 := by
      rw [Int64.lt_iff_toInt_lt]
      omega
    rwa [doubled, if_neg hle, doubled, if_neg hlt]
  | succ i ih =>
    have hlt := hi.resolve_left (Nat.succ_ne_zero i)
    rw [mul_pow_succ] at h hlt
    have hpow := le_mul_pow (x := d.toInt * 2) (by omega) i
    have hbound := max.toInt_lt
    have hdouble := toInt_double_of_lt hd (by omega)
    have hle : ¬ max ≤ d * 2 := by
      rw [Int64.le_iff_toInt_le]
      omega
    rw [doubled, if_neg hle]
    rw [← hdouble] at h hlt
    exact ih (by omega) (.inr hlt) h

theorem retryBackoff_eq (hbase : 0 < base.toInt) (hmax : 0 < max.toInt) (n : Nat) :
    retryBackoff base max (n + 1) = doubled max base n := by
  have hb : ¬ base ≤ 0 := by
    rw [Int64.le_iff_toInt_le]
    exact not_le.mpr hbase
  have hm : ¬ max ≤ 0 := by
    rw [Int64.le_iff_toInt_le]
    exact not_le.mpr hmax
  simp [retryBackoff, hb, hm]

/-- The delay is the power of two up to the maximum, and so positive and not decreasing, exactly if
no doubling on the way to the maximum overflows. -/
theorem backoff_capped_power_iff (base max : Int64) (hbase : 0 < base.toInt) (hmax : 0 < max.toInt) :
    (∀ n : Nat, (retryBackoff base max (n + 1)).toInt = min (base.toInt * 2 ^ n) max.toInt ∧
        0 < (retryBackoff base max (n + 1)).toInt ∧
        (retryBackoff base max (n + 1)).toInt ≤ (retryBackoff base max (n + 2)).toInt) ↔
      ∀ i : Nat, i = 0 ∨ base.toInt * 2 ^ i < max.toInt → base.toInt * 2 ^ (i + 1) < 2 ^ 63 := by
  have hnext : ∀ n : Nat, retryBackoff base max (n + 2) = doubled max base (n + 1) :=
    fun n => retryBackoff_eq hbase hmax (n + 1)
  constructor
  · intro h i hi
    by_contra hover
    have hneg := doubled_neg hbase hmax i hi (not_lt.mp hover)
    have hpos := (h (i + 1)).2.1
    rw [retryBackoff_eq hbase hmax] at hpos
    omega
  · intro h n
    have hpow : 0 < base.toInt * 2 ^ n := Int.mul_pos hbase (Int.pow_pos (by decide))
    rw [retryBackoff_eq hbase hmax, hnext, doubled_of_fits hbase h, doubled_of_fits hbase h]
    refine ⟨rfl, by omega, ?_⟩
    rw [pow_succ, ← mul_assoc]
    omega

theorem default_backoff_capped : (∀ i : Nat, i = 0 ∨ (2000000000 : Int) * 2 ^ i < 30000000000 →
    (2000000000 : Int) * 2 ^ (i + 1) < 2 ^ 63) ∧
    (retryBackoff (2 * second) (30 * second) 4).toInt = 16000000000 := by
  have hfits : ∀ i : Nat, i = 0 ∨ (2000000000 : Int) * 2 ^ i < 30000000000 →
      (2000000000 : Int) * 2 ^ (i + 1) < 2 ^ 63 := by
    rintro i (rfl | hi)
    · decide
    · rw [pow_succ]
      omega
  exact ⟨hfits, ((backoff_capped_power_iff (2 * second) (30 * second) (by decide) (by decide)).mpr hfits 3).1⟩

/-- A base of 2^62 nanoseconds doubles to a negative delay. -/
theorem doubled_base_negative : (4611686018427387904 : Int64).toInt = 2 ^ 62 ∧
    (retryBackoff 4611686018427387904 Int64.maxValue 2).toInt = -2 ^ 63 := by
  decide

end Morf.Queue.Backoff
