import Mathlib.Order.Lattice

/-! How often each member of a list occurs: a map of counters, kept in the order of its keys. -/

namespace Morf.Lib.Histogram

open List

variable {κ : Type} [LinearOrder κ]

def increment (k : κ) : List (κ × Nat) → List (κ × Nat)
  | [] => [(k, 1)]
  | (k', n) :: m =>
    if k = k' then (k, n + 1) :: m
    else if k < k' then (k, 1) :: (k', n) :: m
    else (k', n) :: increment k m

def tally (ks : List κ) : List (κ × Nat) := ks.foldl (fun m k => increment k m) []

end Morf.Lib.Histogram
