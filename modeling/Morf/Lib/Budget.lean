import Mathlib.Data.Finset.Lattice.Fold
import Mathlib.Order.Lattice.Nat
import Morf.Lib.Tally

/-! A budget that several parties draw on.  A party that asks for more than the whole budget gets
all of it. -/

namespace Morf.Lib.Budget

variable {ι : Type} {taken : ι → Nat}

def Balanced (cap avail : Nat) (taken : ι → Nat) : Prop :=
  ∀ F : Finset ι, avail + ∑ i ∈ F, taken i ≤ cap

theorem Balanced.init (cap : Nat) : Balanced cap cap (fun _ : ι => 0) := by
  intro F
  simp

section

variable [DecidableEq ι]

theorem Balanced.take (h : Balanced cap avail taken) (hi : taken i = 0) (hn : n ≤ avail) :
    Balanced cap (avail - n) (Function.update taken i n) := by
  intro F
  have := Tally.sum_update_balance (f := taken) (i := i) (x := avail - n) (y := avail) (b := n) F
    (by omega)
  exact this.trans (h (insert i F))

theorem Balanced.give (h : Balanced cap avail taken) :
    Balanced cap (min cap (avail + taken i)) (Function.update taken i 0) := by
  intro F
  have := Tally.sum_update_balance (f := taken) (i := i) (x := avail + taken i) (y := avail)
    (b := 0) F (by omega)
  have := h (insert i F)
  omega

theorem Balanced.eq_zero (h : Balanced cap avail taken) (hi : taken i = cap) (hk : k ≠ i) :
    taken k = 0 := by
  have := h {k, i}
  rw [Finset.sum_pair hk] at this
  omega

theorem Balanced.sum_le (h : Balanced cap avail taken) (hcap : 0 < cap) (F : Finset ι)
    (hs : ∀ i ∈ F, size i ≤ taken i ∨ taken i = cap) :
    ∑ i ∈ F, size i ≤ max cap (F.sup size) := by
  by_cases hall : ∀ i ∈ F, size i ≤ taken i
  · have hle : ∑ i ∈ F, size i ≤ ∑ i ∈ F, taken i := Finset.sum_le_sum hall
    have := h F
    omega
  · -- someone holds more than it has taken, so it has taken all and the others hold nothing
    push Not at hall
    obtain ⟨i, hi, hlt⟩ := hall
    have htaken : taken i = cap := (hs i hi).resolve_left (by omega)
    have hothers : ∀ k ∈ F, k ≠ i → size k = 0 := by
      intro k hk hne
      have hzero := h.eq_zero htaken hne
      rcases hs k hk with hle | heq
      · omega
      · omega
    rw [Finset.sum_eq_single_of_mem i hi hothers]
    exact (Finset.le_sup hi).trans (Nat.le_max_right _ _)

end

end Morf.Lib.Budget
