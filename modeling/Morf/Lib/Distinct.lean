import Mathlib.Data.List.Induction
import Mathlib.Data.List.ReduceOption

/-! The members of a list that are the first with their key. -/

namespace Morf.Lib.Distinct

open List

variable {α κ : Type} [DecidableEq κ] {key : α → κ}

/-- The members whose key is neither in `seen` nor that of an earlier member. -/
def firstsFrom (key : α → κ) (seen : List κ) : List α → List α
  | [] => []
  | x :: xs =>
    if key x ∈ seen then firstsFrom key seen xs else x :: firstsFrom key (key x :: seen) xs

def firsts (key : α → κ) : List α → List α := firstsFrom key []

theorem firstsFrom_cons_of_mem (h : key x ∈ seen) (xs : List α) :
    firstsFrom key seen (x :: xs) = firstsFrom key seen xs := if_pos h

theorem firstsFrom_cons_of_not_mem (h : key x ∉ seen) (xs : List α) :
    firstsFrom key seen (x :: xs) = x :: firstsFrom key (key x :: seen) xs := if_neg h

theorem firstsFrom_congr (h : ∀ k, k ∈ seen ↔ k ∈ seen') (l : List α) :
    firstsFrom key seen l = firstsFrom key seen' l := by
  induction l generalizing seen seen' with
  | nil => rfl
  | cons x xs ih =>
    have hcons : ∀ k, k ∈ key x :: seen ↔ k ∈ key x :: seen' := by
      intro k
      rw [mem_cons, mem_cons, h]
    rw [firstsFrom, firstsFrom, ih h, ih hcons]
    exact if_congr (h (key x)) rfl rfl

theorem firstsFrom_append (seen : List κ) (a b : List α) :
    firstsFrom key seen (a ++ b) = firstsFrom key seen a ++ firstsFrom key (a.map key ++ seen) b := by
  induction a generalizing seen with
  | nil => rfl
  | cons x xs ih =>
    by_cases hx : key x ∈ seen
    · rw [cons_append, firstsFrom_cons_of_mem hx, firstsFrom_cons_of_mem hx, ih]
      congr 1
      refine firstsFrom_congr (fun k => ?_) b
      simp only [map_cons, cons_append, mem_cons, mem_append]
      refine ⟨.inr, ?_⟩
      rintro (rfl | h)
      · exact .inr hx
      · exact h
    · rw [cons_append, firstsFrom_cons_of_not_mem hx, firstsFrom_cons_of_not_mem hx, ih,
        cons_append]
      congr 2
      refine firstsFrom_congr (fun k => ?_) b
      simp only [map_cons, cons_append, mem_cons, mem_append]
      exact or_left_comm

theorem firstsFrom_firstsFrom (h : seen ⊆ seen') (l : List α) :
    firstsFrom key seen' (firstsFrom key seen l) = firstsFrom key seen' l := by
  induction l generalizing seen seen' with
  | nil => rfl
  | cons x xs ih =>
    by_cases hx : key x ∈ seen
    · rw [firstsFrom_cons_of_mem hx, firstsFrom_cons_of_mem (h hx), ih h]
    · rw [firstsFrom_cons_of_not_mem hx]
      by_cases hx' : key x ∈ seen'
      · rw [firstsFrom_cons_of_mem hx', firstsFrom_cons_of_mem hx',
          ih (cons_subset.mpr ⟨hx', h⟩)]
      · rw [firstsFrom_cons_of_not_mem hx', firstsFrom_cons_of_not_mem hx',
          ih (cons_subset_cons _ h)]

theorem mem_map_firstsFrom : k ∈ (firstsFrom key seen l).map key ↔ k ∉ seen ∧ k ∈ l.map key := by
  induction l generalizing seen with
  | nil => simp [firstsFrom]
  | cons x xs ih =>
    by_cases hx : key x ∈ seen
    · rw [firstsFrom_cons_of_mem hx, ih, map_cons, mem_cons]
      refine and_congr_right fun hk => ⟨.inr, ?_⟩
      rintro (rfl | h)
      · exact absurd hx hk
      · exact h
    · rw [firstsFrom_cons_of_not_mem hx, map_cons, mem_cons, ih, map_cons,
        mem_cons, mem_cons, not_or]
      constructor
      · rintro (rfl | ⟨⟨-, hk⟩, h⟩)
        · exact ⟨hx, .inl rfl⟩
        · exact ⟨hk, .inr h⟩
      · rintro ⟨hk, rfl | h⟩
        · exact .inl rfl
        · by_cases he : k = key x
          · exact .inl he
          · exact .inr ⟨⟨he, hk⟩, h⟩

theorem nodup_map_firstsFrom (seen : List κ) (l : List α) :
    ((firstsFrom key seen l).map key).Nodup := by
  induction l generalizing seen with
  | nil => exact nodup_nil
  | cons x xs ih =>
    by_cases hx : key x ∈ seen
    · rw [firstsFrom_cons_of_mem hx]
      exact ih seen
    · rw [firstsFrom_cons_of_not_mem hx, map_cons, nodup_cons]
      exact ⟨fun h => (mem_map_firstsFrom.mp h).1 mem_cons_self, ih (key x :: seen)⟩

theorem firsts_append (a b : List α) :
    firsts key (a ++ b) = firsts key a ++ firstsFrom key (a.map key) b := by
  rw [firsts, firstsFrom_append, append_nil]

theorem firsts_concat (l : List α) (x : α) :
    firsts key (l ++ [x]) = if key x ∈ l.map key then firsts key l else firsts key l ++ [x] := by
  rw [firsts_append]
  split
  · rename_i h
    rw [firstsFrom_cons_of_mem h, firstsFrom, append_nil]
  · rename_i h
    rw [firstsFrom_cons_of_not_mem h, firstsFrom]

theorem mem_firsts_self {l : List κ} : k ∈ firsts (fun k => k) l ↔ k ∈ l := by
  have h : k ∈ (firsts (fun k => k) l).map (fun k => k) ↔ k ∉ [] ∧ k ∈ l.map (fun k => k) :=
    mem_map_firstsFrom
  simpa using h

theorem nodup_firsts_self (l : List κ) : (firsts (fun k => k) l).Nodup := by
  have h : ((firsts (fun k => k) l).map fun k => k).Nodup := nodup_map_firstsFrom [] l
  rwa [map_id'] at h

theorem firstsFrom_map {f : β → κ} (hf : f.Injective) [DecidableEq β] (seen l : List β) :
    firstsFrom (fun k => k) (seen.map f) (l.map f) = (firstsFrom (fun b => b) seen l).map f := by
  induction l generalizing seen with
  | nil => rfl
  | cons b bs ih =>
    have hmem : f b ∈ seen.map f ↔ b ∈ seen := mem_map_of_injective hf
    rw [map_cons, firstsFrom, firstsFrom]
    by_cases hb : b ∈ seen
    · rw [if_pos (hmem.mpr hb), if_pos hb, ih]
    · rw [if_neg (mt hmem.mp hb), if_neg hb, map_cons, ← ih, map_cons]

theorem firsts_map {f : β → κ} (hf : f.Injective) [DecidableEq β] (l : List β) :
    firsts (fun k => k) (l.map f) = (firsts (fun b => b) l).map f := firstsFrom_map hf [] l

theorem firsts_firsts (l : List α) : firsts key (firsts key l) = firsts key l :=
  firstsFrom_firstsFrom (Subset.refl []) l

theorem firsts_append_firsts (a b : List α) :
    firsts key (firsts key a ++ firsts key b) = firsts key (a ++ b) := by
  have hkeys : ∀ k, k ∈ (firsts key a).map key ↔ k ∈ a.map key := fun k => by
    simp [firsts, mem_map_firstsFrom]
  rw [firsts_append, firsts_append, firsts_firsts, firstsFrom_congr hkeys]
  exact congrArg (firsts key a ++ ·) (firstsFrom_firstsFrom (nil_subset _) b)

theorem firsts_eq (l : List α) :
    firsts key l = (l.mapIdx fun i x =>
      if ∀ y ∈ l.take i, key y ≠ key x then some x else none).reduceOption := by
  induction l using reverseRecOn with
  | nil => rfl
  | append_singleton l x ih =>
    have hfront : (l.mapIdx fun i y =>
        if ∀ z ∈ (l ++ [x]).take i, key z ≠ key y then some y else none) =
        l.mapIdx fun i y => if ∀ z ∈ l.take i, key z ≠ key y then some y else none := by
      refine mapIdx_eq_mapIdx_iff.mpr fun i hi => ?_
      rw [take_append_of_le_length (Nat.le_of_lt hi)]
    have hlast : firstsFrom key (l.map key) [x] =
        (if ∀ z ∈ l, key z ≠ key x then some x else none).toList := by
      by_cases hx : key x ∈ l.map key
      · obtain ⟨z, hz, hkey⟩ := mem_map.mp hx
        rw [firstsFrom_cons_of_mem hx, if_neg fun h => h z hz hkey]
        rfl
      · have hnew : ∀ z ∈ l, key z ≠ key x := fun z hz hkey => hx (hkey ▸ mem_map_of_mem hz)
        rw [firstsFrom_cons_of_not_mem hx, if_pos hnew]
        rfl
    rw [firsts_append, hlast, ih, mapIdx_concat, hfront, reduceOption_append]
    congr 1
    rw [take_left]
    split <;> rfl

theorem firstsFrom_filterMap {f : α → Option β} (hkey : ∀ {x y}, f x = some y → key' y = key x)
    (hdrop : ∀ {x x'}, key x = key x' → (f x).isSome = (f x').isSome)
    (hseen : ∀ x, (f x).isSome = true → (key x ∈ seen' ↔ key x ∈ seen)) (l : List α) :
    firstsFrom key' seen' (l.filterMap f) = (firstsFrom key seen l).filterMap f := by
  induction l generalizing seen seen' with
  | nil => rfl
  | cons x xs ih =>
    cases hf : f x with
    | none =>
      rw [filterMap_cons_none hf]
      by_cases hx : key x ∈ seen
      · rw [firstsFrom_cons_of_mem hx, ih hseen]
      · rw [firstsFrom_cons_of_not_mem hx, filterMap_cons_none hf]
        refine ih fun x' hx' => ?_
        have hne : key x' ≠ key x := fun he => by simp [hdrop he, hf] at hx'
        rw [hseen x' hx', mem_cons, or_iff_right hne]
    | some y =>
      have hy : key' y = key x := hkey hf
      have hmem : key' y ∈ seen' ↔ key x ∈ seen := hy ▸ hseen x (by rw [hf]; rfl)
      rw [filterMap_cons_some hf]
      by_cases hx : key x ∈ seen
      · rw [firstsFrom_cons_of_mem hx, firstsFrom_cons_of_mem (hmem.mpr hx), ih hseen]
      · rw [firstsFrom_cons_of_not_mem hx, firstsFrom_cons_of_not_mem (mt hmem.mp hx),
          filterMap_cons_some hf, hy]
        refine congrArg (y :: ·) (ih fun x' hx' => ?_)
        rw [mem_cons, mem_cons, hseen x' hx']

end Morf.Lib.Distinct
