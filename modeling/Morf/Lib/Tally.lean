import Mathlib.Algebra.BigOperators.Group.Finset.Basic
import Mathlib.Algebra.Order.BigOperators.Group.Finset

/-! Finite sums of counters when one counter changes. -/

namespace Morf.Lib.Tally

open Function

variable {ι : Type} [DecidableEq ι] {f : ι → Nat}

theorem sum_erase_update (F : Finset ι) :
    ∑ x ∈ F.erase i, update f i b x = ∑ x ∈ F.erase i, f x := by
  apply Finset.sum_congr rfl
  intro x hx
  exact update_of_ne (Finset.ne_of_mem_erase hx) ..

theorem sum_update (F : Finset ι) (hi : i ∈ F) :
    ∑ x ∈ F, update f i b x + f i = ∑ x ∈ F, f x + b := by
  have hnew := Finset.add_sum_erase F (update f i b) hi
  have hold := Finset.add_sum_erase F f hi
  rw [sum_erase_update, update_self] at hnew
  omega

theorem sum_apply_update [Fintype ι] {M : Type} (g : M → Nat) (m : ι → M) (i : ι) (p : M) :
    ∑ x, g (update m i p x) + g (m i) = ∑ x, g (m x) + g p := by
  simp only [apply_update fun _ => g]
  exact sum_update (f := fun x => g (m x)) Finset.univ (Finset.mem_univ i)

theorem sum_update_le (F : Finset ι) (h : b ≤ f i + c) :
    ∑ x ∈ F, update f i b x ≤ ∑ x ∈ F, f x + c := by
  by_cases hi : i ∈ F
  · have := sum_update (f := f) (b := b) F hi
    omega
  · have := sum_erase_update (f := f) (i := i) (b := b) F
    rw [Finset.erase_eq_of_notMem hi] at this
    omega

theorem sum_update_balance (F : Finset ι) (h : x + b ≤ y + f i) :
    x + ∑ k ∈ F, update f i b k ≤ y + ∑ k ∈ insert i F, f k := by
  have hs := sum_update (f := f) (b := b) (insert i F) (Finset.mem_insert_self i F)
  have hle : ∑ k ∈ F, update f i b k ≤ ∑ k ∈ insert i F, update f i b k :=
    Finset.sum_le_sum_of_subset (Finset.subset_insert i F)
  omega

/-- A counter shrinks by at least `c`.  It may lie outside the sum, so the bound counts
it in. -/
theorem sum_update_add_le (F : Finset ι) (h : b + c ≤ f i) :
    ∑ x ∈ F, update f i b x + c ≤ ∑ x ∈ insert i F, f x := by
  have := sum_update_balance (x := c) (y := 0) F (by omega : c + b ≤ 0 + f i)
  omega

end Morf.Lib.Tally
