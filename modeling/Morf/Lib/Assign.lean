import Mathlib.Data.List.Induction
import Mathlib.Logic.Function.Basic

/-! A map that is filled by assignments, one after the other. -/

namespace Morf.Lib.Assign

open List Function Option

variable {K V : Type} [DecidableEq K] {l : List (K × V)}

def assign (out : K → Option V) (p : K × V) : K → Option V := Function.update out p.1 (some p.2)

def assigned (l : List (K × V)) : K → Option V := l.foldl assign fun _ => none

theorem assigned_concat (l : List (K × V)) (p : K × V) :
    assigned (l ++ [p]) = Function.update (assigned l) p.1 (some p.2) := by
  rw [assigned, foldl_append]
  rfl

theorem mem_of_assigned (h : assigned l k = some v) : (k, v) ∈ l := by
  induction l using reverseRecOn with
  | nil => cases h
  | append_singleton l p ih =>
    rw [assigned_concat] at h
    by_cases hk : k = p.1
    · subst hk
      rw [update_self] at h
      obtain rfl := some.inj h
      exact mem_append_right _ mem_cons_self
    · rw [update_of_ne hk] at h
      exact mem_append_left _ (ih h)

theorem exists_assigned (h : (k, v) ∈ l) : ∃ w, assigned l k = some w := by
  induction l using reverseRecOn with
  | nil => cases h
  | append_singleton l p ih =>
    rw [assigned_concat]
    by_cases hk : k = p.1
    · exact ⟨p.2, by rw [hk, update_self]⟩
    · rw [update_of_ne hk]
      refine ih ((mem_append.mp h).resolve_right fun hp => hk ?_)
      rw [← mem_singleton.mp hp]

def Agree (l : List (K × V)) : Prop := ∀ p ∈ l, ∀ q ∈ l, p.1 = q.1 → p.2 = q.2

theorem Agree.assigned_iff (h : Agree l) : assigned l k = some v ↔ (k, v) ∈ l := by
  refine ⟨mem_of_assigned, fun hmem => ?_⟩
  obtain ⟨w, hw⟩ := exists_assigned hmem
  exact hw.trans (congrArg some (h _ (mem_of_assigned hw) _ hmem rfl))

theorem forall_perm_iff {α : Type} {f : α → Option (K × V)} {xs : List α} :
    (∀ ys : List α, ys.Perm xs → assigned (ys.filterMap f) = assigned (xs.filterMap f)) ↔
      Agree (xs.filterMap f) := by
  constructor
  · intro h p hp q hq hkey
    -- each of the two can come last
    have hlast : ∀ r ∈ xs.filterMap f, assigned (xs.filterMap f) r.1 = some r.2 := by
      intro r hr
      obtain ⟨x, hx, hfx⟩ := mem_filterMap.mp hr
      obtain ⟨a, b, rfl⟩ := append_of_mem hx
      have hperm : (a ++ b ++ [x]).Perm (a ++ x :: b) := by
        rw [append_assoc]
        exact (perm_append_singleton x b).append_left a
      rw [← h _ hperm, filterMap_append, filterMap_cons_some hfx, filterMap_nil,
        assigned_concat, update_self]
    have hq := hlast q hq
    rw [← hkey, hlast p hp] at hq
    exact some.inj hq
  · intro h ys hperm
    have hsub := fun p => (hperm.filterMap f).subset (a := p)
    have h' : Agree (ys.filterMap f) := fun p hp q hq => h p (hsub p hp) q (hsub q hq)
    funext k
    refine Option.ext fun v => ?_
    rw [h'.assigned_iff, h.assigned_iff, (hperm.filterMap f).mem_iff]

def assignNew (out : K → Option V) (p : K × V) : K → Option V :=
  if (out p.1).isSome then out else assign out p

theorem foldl_assignNew (l : List (K × V)) (out : K → Option V) (k : K) :
    l.foldl assignNew out k = (out k).or ((l.find? fun p => p.1 = k).map Prod.snd) := by
  induction l generalizing out with
  | nil => rw [foldl_nil, find?_nil, map_none, or_none]
  | cons p l ih =>
    rw [foldl_cons, ih, find?_cons]
    cases hout : out p.1 with
    | some v =>
      rw [assignNew, if_pos (by simp [hout])]
      by_cases hk : p.1 = k
      · simp [← hk, hout]
      · simp [hk]
    | none =>
      rw [assignNew, if_neg (by simp [hout])]
      by_cases hk : p.1 = k
      · simp [assign, ← hk, hout]
      · simp [assign, hk, update_of_ne (Ne.symm hk)]

section Parts

theorem assigned_eq (l : List (K × V)) (k : K) :
    assigned l k = ((l.filter fun p => p.1 = k).getLast?).map Prod.snd := by
  induction l using reverseRecOn with
  | nil => rfl
  | append_singleton l p ih =>
    rw [assigned_concat, filter_append]
    by_cases hk : p.1 = k
    · rw [← hk, update_self, filter_cons_of_pos (by simp), filter_nil,
        getLast?_concat]
      rfl
    · rw [update_of_ne (Ne.symm hk), ih, filter_cons_of_neg (by simp [hk]),
        filter_nil, append_nil]

theorem assigned_eq_none (h : ∀ p ∈ l, p.1 ≠ k) : assigned l k = none := by
  rw [assigned_eq, filter_eq_nil_iff.mpr fun p hp => by simpa using h p hp]
  rfl

theorem assigned_prefix_iff (hl : (l.map Prod.fst).Nodup) (h : kept <+: l) :
    assigned kept = assigned l ↔ kept = l := by
  refine ⟨fun heq => ?_, fun heq => heq ▸ rfl⟩
  obtain ⟨rest, rfl⟩ := h
  cases rest with
  | nil => exact (append_nil kept).symm
  | cons p rest =>
    rw [map_append, map_cons] at hl
    have hout : ∀ q ∈ kept, q.1 ≠ p.1 := fun q hq =>
      (nodup_append.mp hl).2.2 _ (mem_map_of_mem hq) _ mem_cons_self
    obtain ⟨v, hv⟩ := exists_assigned (k := p.1) (v := p.2)
      (mem_append_right kept (mem_cons_self (a := p) (l := rest)))
    rw [← heq, assigned_eq_none hout] at hv
    cases hv

variable {α : Type} {name : α → K} {value : α → V} {part : α → List (K × V)} {Foreign : K → Prop}
  {xs : List α}

theorem filter_part_of_ne (hname : ∀ x ∈ xs, ¬ Foreign (name x))
    (hkeys : ∀ x ∈ xs, ∀ p ∈ part x, p.1 = name x ∨ Foreign p.1) (hx : x ∈ xs) (hy : y ∈ xs)
    (hne : name y ≠ name x) : ((part y).filter fun p => p.1 = name x) = [] := by
  refine filter_eq_nil_iff.mpr fun p hp hkey => ?_
  have hkey : p.1 = name x := of_decide_eq_true hkey
  rcases hkeys y hy p hp with h | h
  · exact hne (h.symm.trans hkey)
  · exact hname x hx (hkey ▸ h)

theorem filter_flatMap_part (hnodup : (xs.map name).Nodup) (hname : ∀ x ∈ xs, ¬ Foreign (name x))
    (hkeys : ∀ x ∈ xs, ∀ p ∈ part x, p.1 = name x ∨ Foreign p.1) (hx : x ∈ xs) :
    ((xs.flatMap part).filter fun p => p.1 = name x) = (part x).filter fun p => p.1 = name x := by
  obtain ⟨as, bs, rfl⟩ := append_of_mem hx
  rw [map_append, map_cons] at hnodup
  obtain ⟨-, hafter, hbefore⟩ := nodup_append.mp hnodup
  have hrest : ∀ ys : List α, (∀ y ∈ ys, y ∈ as ++ x :: bs ∧ name y ≠ name x) →
      ((ys.flatMap part).filter fun p => p.1 = name x) = [] := by
    intro ys hys
    rw [filter_flatMap]
    exact flatMap_eq_nil_iff.mpr fun y hy =>
      filter_part_of_ne hname hkeys hx (hys y hy).1 (hys y hy).2
  rw [flatMap_append, flatMap_cons, filter_append, filter_append,
    hrest as fun y hy => ⟨mem_append_left _ hy,
      hbefore _ (mem_map_of_mem hy) _ mem_cons_self⟩,
    hrest bs fun y hy => ⟨mem_append_right _ (mem_cons_of_mem x hy), fun he =>
      (nodup_cons.mp hafter).1 (he ▸ mem_map_of_mem hy)⟩,
    nil_append, append_nil]

/-- Parts that assign to their own names, or to foreign ones, give the map of the names just if the
foreign ones are not assigned to and each part leaves its own name with its value. -/
theorem assigned_parts_iff (hlead : ∀ p ∈ lead, Foreign p.1) (hnodup : (xs.map name).Nodup)
    (hname : ∀ x ∈ xs, ¬ Foreign (name x))
    (hkeys : ∀ x ∈ xs, ∀ p ∈ part x, p.1 = name x ∨ Foreign p.1) :
    assigned (lead ++ xs.flatMap part) = assigned (xs.map fun x => (name x, value x)) ↔
      lead = [] ∧ ∀ x ∈ xs, (∀ p ∈ part x, ¬ Foreign p.1) ∧
        assigned (part x) (name x) = some (value x) := by
  have hwanted : ∀ x ∈ xs, assigned (xs.map fun x => (name x, value x)) (name x) = some (value x) := by
    intro x hx
    have hfilter : ((xs.flatMap fun x => [(name x, value x)]).filter fun p => p.1 = name x) =
        [(name x, value x)].filter fun p => p.1 = name x :=
      filter_flatMap_part hnodup hname (fun x _ p hp => .inl (by rw [mem_singleton.mp hp])) hx
    rw [← map_eq_flatMap] at hfilter
    rw [assigned_eq, hfilter]
    simp
  have hother : ∀ k, (∀ x ∈ xs, name x ≠ k) →
      assigned (xs.map fun x => (name x, value x)) k = none := fun k hk =>
    assigned_eq_none (forall_mem_map.mpr fun x hx => hk x hx)
  have hown : ∀ x ∈ xs, assigned (lead ++ xs.flatMap part) (name x) = assigned (part x) (name x) := by
    intro x hx
    have hnone : (lead.filter fun p => p.1 = name x) = [] :=
      filter_eq_nil_iff.mpr fun p hp hkey =>
        hname x hx (of_decide_eq_true hkey ▸ hlead p hp)
    rw [assigned_eq, assigned_eq, filter_append, hnone, nil_append,
      filter_flatMap_part hnodup hname hkeys hx]
  constructor
  · intro h
    have hforeign : ∀ p ∈ lead ++ xs.flatMap part, ¬ Foreign p.1 := by
      intro p hp hp'
      obtain ⟨v, hv⟩ := exists_assigned (k := p.1) (v := p.2) hp
      rw [h, hother p.1 fun x hx he => hname x hx (he ▸ hp')] at hv
      cases hv
    refine ⟨eq_nil_iff_forall_not_mem.mpr fun p hp =>
      hforeign p (mem_append_left _ hp) (hlead p hp), fun x hx => ⟨fun p hp => ?_, ?_⟩⟩
    · exact hforeign p (mem_append_right _ (mem_flatMap_of_mem hx hp))
    · rw [← hown x hx, h, hwanted x hx]
  · rintro ⟨rfl, h⟩
    funext k
    by_cases hk : ∃ x ∈ xs, name x = k
    · obtain ⟨x, hx, rfl⟩ := hk
      rw [hown x hx, hwanted x hx, (h x hx).2]
    · have hk' : ∀ x ∈ xs, name x ≠ k := fun x hx he => hk ⟨x, hx, he⟩
      rw [hother k hk']
      refine assigned_eq_none fun p hp he => ?_
      obtain ⟨x, hx, hp⟩ := mem_flatMap.mp hp
      exact hk' x hx (((hkeys x hx p hp).resolve_right ((h x hx).1 p hp)).symm.trans he)

end Parts

end Morf.Lib.Assign
