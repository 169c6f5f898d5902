import Mathlib.Algebra.GroupWithZero.Nat
import Mathlib.Data.List.Basic

/-! Days and dates of the Gregorian calendar, counted from the first day of the year 0. -/

namespace Morf.Lib.Calendar

def locate : List Nat → Nat → Nat × Nat
  | [], n => (0, n)
  | len :: lens, n => if n < len then (0, n) else ((locate lens (n - len)).1 + 1, (locate lens (n - len)).2)

theorem locate_spec (h : n < lens.sum) :
    ∃ len, lens[(locate lens n).1]? = some len ∧ (locate lens n).2 < len ∧
      (lens.take (locate lens n).1).sum + (locate lens n).2 = n := by
  induction lens generalizing n with
  | nil => exact absurd h (Nat.not_lt_zero n)
  | cons len lens ih =>
    rw [List.sum_cons] at h
    by_cases hn : n < len
    · rw [locate, if_pos hn]
      exact ⟨len, rfl, hn, by simp⟩
    · rw [locate, if_neg hn]
      obtain ⟨len', hget, hlt, hsum⟩ := ih (n := n - len) (by omega)
      refine ⟨len', hget, hlt, ?_⟩
      rw [List.take_succ_cons, List.sum_cons, Nat.add_assoc, hsum]
      omega

def isLeap (year : Nat) : Bool := year % 4 = 0 ∧ (year % 100 ≠ 0 ∨ year % 400 = 0)

def yearLength (year : Nat) : Nat := if isLeap year then 366 else 365

def monthLengths (year : Nat) : List Nat :=
  [31, if isLeap year then 29 else 28, 31, 30, 31, 30, 31, 31, 30, 31, 30, 31]

def daysIn (month year : Nat) : Nat := (monthLengths year).getD (month - 1) 0

def cycle : List Nat := (List.range 400).map yearLength

def cycleLength : Nat := 146097

structure Date where
  year : Nat
  month : Nat
  day : Nat
  deriving DecidableEq

def date (n : Nat) : Date :=
  let inCycle := locate cycle (n % cycleLength)
  let year := 400 * (n / cycleLength) + inCycle.1
  let inYear := locate (monthLengths year) inCycle.2
  ⟨year, inYear.1 + 1, inYear.2 + 1⟩

def dayNumber (d : Date) : Nat :=
  cycleLength * (d.year / 400) + (cycle.take (d.year % 400)).sum +
    ((monthLengths d.year).take (d.month - 1)).sum + (d.day - 1)

def Date.Valid (d : Date) : Prop :=
  1 ≤ d.month ∧ d.month ≤ 12 ∧ 1 ≤ d.day ∧ d.day ≤ daysIn d.month d.year

theorem sum_cycle : cycle.sum = cycleLength := by decide +kernel

theorem sum_monthLengths (year : Nat) : (monthLengths year).sum = yearLength year := by
  rw [monthLengths, yearLength]
  split <;> rfl

theorem isLeap_cycle (k y : Nat) : isLeap (400 * k + y) = isLeap y := by
  have h4 : (400 * k + y) % 4 = y % 4 := by omega
  have h100 : (400 * k + y) % 100 = y % 100 := by omega
  have h400 : (400 * k + y) % 400 = y % 400 := by omega
  rw [isLeap, isLeap, h4, h100, h400]

theorem daysIn_le (month year : Nat) : daysIn month year ≤ 31 := by
  have hle : ∀ n ∈ monthLengths year, n ≤ 31 := by
    rw [monthLengths]
    split <;> decide
  rw [daysIn, List.getD_eq_getElem?_getD]
  cases hget : (monthLengths year)[month - 1]? with
  | none => exact Nat.zero_le 31
  | some n => exact hle n (List.mem_of_getElem? hget)

theorem date_spec (n : Nat) : (date n).Valid ∧ dayNumber (date n) = n ∧
    (date n).year / 400 = n / cycleLength := by
  have hcycle : n % cycleLength < cycle.sum := by
    rw [sum_cycle]
    exact Nat.mod_lt n (by decide)
  obtain ⟨len, hlen, hday, hyear⟩ := locate_spec hcycle
  generalize hy : locate cycle (n % cycleLength) = inCycle at *
  obtain ⟨hlt, hget⟩ := List.getElem?_eq_some_iff.mp hlen
  have hy400 : inCycle.1 < 400 := by simpa [cycle] using hlt
  have hlength : len = yearLength inCycle.1 := by
    rw [← hget]
    simp [cycle]
  have hmonths : inCycle.2 < (monthLengths (400 * (n / cycleLength) + inCycle.1)).sum := by
    rw [sum_monthLengths, yearLength, isLeap_cycle, ← yearLength, ← hlength]
    exact hday
  have hdate : date n = ⟨400 * (n / cycleLength) + inCycle.1,
      (locate (monthLengths (400 * (n / cycleLength) + inCycle.1)) inCycle.2).1 + 1,
      (locate (monthLengths (400 * (n / cycleLength) + inCycle.1)) inCycle.2).2 + 1⟩ := by
    rw [date, hy]
  obtain ⟨mlen, hmlen, hmday, hmonth⟩ := locate_spec hmonths
  generalize hm : locate (monthLengths (400 * (n / cycleLength) + inCycle.1)) inCycle.2 = inYear at *
  have hdiv : (400 * (n / cycleLength) + inCycle.1) / 400 = n / cycleLength := by omega
  have hmod : (400 * (n / cycleLength) + inCycle.1) % 400 = inCycle.1 := by omega
  have hm12 : inYear.1 < 12 := (List.getElem?_eq_some_iff.mp hmlen).1
  rw [hdate]
  refine ⟨⟨Nat.succ_pos _, hm12, Nat.succ_pos _, ?_⟩, ?_, hdiv⟩
  · rw [daysIn, Nat.add_sub_cancel, List.getD_eq_getElem?_getD, hmlen]
    exact hmday
  · simp only [dayNumber, hdiv, hmod, Nat.add_sub_cancel]
    rw [Nat.add_assoc, hmonth, Nat.add_assoc, hyear]
    exact Nat.div_add_mod n cycleLength

theorem date_year_lt (h : n < 25 * cycleLength) : (date n).year < 10000 := by
  have hdiv := (date_spec n).2.2
  have hlt : n / cycleLength < 25 := Nat.div_lt_of_lt_mul (by rwa [Nat.mul_comm])
  omega

end Morf.Lib.Calendar
