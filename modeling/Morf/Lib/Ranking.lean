import Mathlib.Data.List.Nodup

/-! The order of two members of a list without repetitions, and what a stable sort makes of it. -/

namespace Morf.Lib.Ranking

open scoped List
open List

variable {α β : Type} {l : List α} {a : α}

theorem pair_sublist_append (ha : a ∈ l₁) (hb : b ∈ l₂) : [a, b] <+ l₁ ++ l₂ :=
  (singleton_sublist.mpr ha).append (singleton_sublist.mpr hb)

theorem pair_sublist_or (ha : a ∈ l) (hb : b ∈ l) (hne : a ≠ b) : [a, b] <+ l ∨ [b, a] <+ l := by
  obtain ⟨l₁, l₂, rfl⟩ := append_of_mem ha
  rcases mem_append.mp hb with hb | hb
  · exact .inr (pair_sublist_append hb mem_cons_self)
  · have hb : b ∈ l₂ := (mem_cons.mp hb).resolve_left (Ne.symm hne)
    have hpair : [a, b] <+ (l₁ ++ [a]) ++ l₂ :=
      pair_sublist_append (mem_append_right _ mem_cons_self) hb
    rw [append_assoc] at hpair
    exact .inl hpair

theorem not_pair_swap (hl : l.Nodup) (h : [a, b] <+ l) : ¬ [b, a] <+ l := by
  induction l with
  | nil => cases h
  | cons x l ih =>
    rw [nodup_cons] at hl
    intro h'
    cases h with
    | cons _ h =>
      cases h' with
      | cons _ h' => exact ih hl.2 h h'
      | cons_cons _ h' => exact hl.1 (h.subset (by simp))
    | cons_cons _ h =>
      cases h' with
      | cons _ h' => exact hl.1 (h'.subset (by simp))
      | cons_cons _ h' => exact hl.1 (h.subset (by simp))

theorem pair_sublist_map_iff {f : α → β} (hl : (l.map f).Nodup) (ha : a ∈ l) (hb : b ∈ l)
    (hne : f a ≠ f b) : [f a, f b] <+ l.map f ↔ [a, b] <+ l := by
  refine ⟨fun h => ?_, fun h => h.map f⟩
  refine (pair_sublist_or ha hb fun hab => hne (congrArg f hab)).resolve_right fun hswap => ?_
  exact not_pair_swap hl h (hswap.map f)

theorem pair_sublist_of_cut (ha : a ∈ l.take n) (hb : b ∈ l) (hcut : b ∉ l.take n) :
    [a, b] <+ l := by
  have hdrop : b ∈ l.drop n := by
    rw [← take_append_drop n l] at hb
    exact (mem_append.mp hb).resolve_left hcut
  rw [← take_append_drop n l]
  exact pair_sublist_append ha hdrop

theorem length_take_of_cut (hb : b ∈ l) (hcut : b ∉ l.take n) : (l.take n).length = n := by
  rw [length_take]
  by_contra h
  rw [take_of_length_le (by omega)] at hcut
  exact hcut hb

theorem pair_sublist_mergeSort_iff (trans : ∀ a b c, le a b = true → le b c = true → le a c = true)
    (total : ∀ a b, (le a b || le b a) = true) (hl : l.Nodup) (ha : a ∈ l) (hb : b ∈ l)
    (hne : a ≠ b) : [a, b] <+ l.mergeSort le ↔ le a b = true ∧ (le b a = true → [a, b] <+ l) := by
  have hnodup : (l.mergeSort le).Nodup := (mergeSort_perm l le).nodup_iff.mpr hl
  have hsorted : ∀ {x y}, [x, y] <+ l.mergeSort le → le x y = true := by
    intro x y h
    have hpair := (pairwise_mergeSort trans total l).sublist h
    exact rel_of_pairwise_cons hpair mem_cons_self
  constructor
  · intro h
    refine ⟨hsorted h, fun hba => ?_⟩
    refine (pair_sublist_or ha hb hne).resolve_right fun hswap => ?_
    exact not_pair_swap hnodup h (pair_sublist_mergeSort trans total hba hswap)
  · rintro ⟨hab, hold⟩
    have hmem : ∀ {x}, x ∈ l → x ∈ l.mergeSort le := mem_mergeSort.mpr
    by_cases hba : le b a = true
    · exact pair_sublist_mergeSort trans total hab (hold hba)
    · exact (pair_sublist_or (hmem ha) (hmem hb) hne).resolve_right fun hswap => hba (hsorted hswap)

end Morf.Lib.Ranking
