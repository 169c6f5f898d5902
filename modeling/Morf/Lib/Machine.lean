import Mathlib.Logic.Function.Basic

/-! Labelled transition systems, runs whose steps all meet a condition, and the
invariant rule for them. -/

namespace Morf.Lib

open Option

theorem update_cases {A B : Type} [DecidableEq A] {f : A → B} {a k : A} {b x : B}
    (h : Function.update f a b k = x) : k = a ∧ b = x ∨ k ≠ a ∧ f k = x := by
  by_cases hk : k = a
  · subst hk
    exact .inl ⟨rfl, (Function.update_self ..).symm.trans h⟩
  · exact .inr ⟨hk, (Function.update_of_ne hk ..).symm.trans h⟩

theorem update_or {A B : Type} [DecidableEq A] {f : A → B} {a k : A} {b : B} {P : B → Prop}
    (h : P (Function.update f a b k)) : k = a ∧ P b ∨ k ≠ a ∧ P (f k) := by
  generalize hx : Function.update f a b k = x at h
  obtain ⟨hk, rfl⟩ | ⟨hk, rfl⟩ := update_cases hx
  · exact .inl ⟨hk, h⟩
  · exact .inr ⟨hk, h⟩

theorem of_update {A B : Type} [DecidableEq A] {f : A → B} {a k : A} {b : B} {P : B → Prop}
    (h : P (Function.update f a b k)) (hb : ¬P b) : P (f k) :=
  (update_or h).elim (fun h => (hb h.2).elim) And.right

structure Machine (S L : Type) where
  init : S
  step : S → L → Option S

namespace Machine

variable {M : Machine S L}

inductive Reach (M : Machine S L) (ok : S → L → Prop) (s : S) : S → Prop
  | refl : Reach M ok s s
  | tail {t u : S} {l : L} : Reach M ok s t → ok t l → M.step t l = some u → Reach M ok s u

def Reachable (M : Machine S L) (ok : S → L → Prop) (s : S) : Prop := M.Reach ok M.init s

def anyStep : S → L → Prop := fun _ _ => True

theorem Reach.mono (h : M.Reach ok s t) (hok : ∀ s l, ok s l → ok' s l) : M.Reach ok' s t := by
  induction h with
  | refl => exact .refl
  | tail _ hl hs ih => exact .tail ih (hok _ _ hl) hs

theorem Reach.trans (h : M.Reach ok s t) (h' : M.Reach ok t u) : M.Reach ok s u := by
  induction h' with
  | refl => exact h
  | tail _ hl hs ih => exact .tail ih hl hs

theorem Reach.invariant {I : S → Prop} (hI : I s)
    (hstep : ∀ t l u, I t → ok t l → M.step t l = some u → I u) (h : M.Reach ok s t) : I t := by
  induction h with
  | refl => exact hI
  | tail _ hl hs ih => exact hstep _ _ _ ih hl hs

def exec (M : Machine S L) : S → List L → Option S
  | s, [] => some s
  | s, l :: ls => (M.step s l).bind (fun t => M.exec t ls)

def execIf (M : Machine S L) (b : S → L → Bool) : S → List L → Option S
  | s, [] => some s
  | s, l :: ls => if b s l then (M.step s l).bind (fun t => M.execIf b t ls) else none

theorem reach_of_head (hl : ok s l) (hs : M.step s l = some t) (h : M.Reach ok t u) :
    M.Reach ok s u := .trans (.tail .refl hl hs) h

theorem reach_of_execIf (hb : ∀ s l, b s l = true → ok s l) (ls : List L)
    (h : M.execIf b s ls = some t) : M.Reach ok s t := by
  induction ls generalizing s with
  | nil =>
    simp only [execIf, some.injEq] at h
    subst h
    exact .refl
  | cons l ls ih =>
    simp only [execIf] at h
    split at h
    case isTrue hl =>
      obtain ⟨t', ht, h⟩ := bind_eq_some_iff.mp h
      exact reach_of_head (hb _ _ hl) ht (ih h)
    case isFalse => cases h

theorem exec_of_execIf (ls : List L) (h : M.execIf b s ls = some t) : M.exec s ls = some t := by
  induction ls generalizing s with
  | nil => exact h
  | cons l ls ih =>
    simp only [execIf] at h
    split at h
    case isTrue =>
      obtain ⟨t', ht, h⟩ := bind_eq_some_iff.mp h
      exact bind_eq_some_iff.mpr ⟨t', ht, ih h⟩
    case isFalse => cases h

theorem exists_reach_of_execIf (hb : ∀ s l, b s l = true → ok s l) (ls : List L)
    (h : (M.execIf b s ls).any p = true) : ∃ t, M.Reach ok s t ∧ p t = true := by
  obtain ⟨t, ht, hp⟩ := (any_eq_true p _).mp h
  exact ⟨t, reach_of_execIf hb ls ht, hp⟩

theorem reach_of_exec (ls : List L) (h : M.exec s ls = some t) : M.Reach anyStep s t := by
  induction ls generalizing s with
  | nil =>
    simp only [exec, some.injEq] at h
    subst h
    exact .refl
  | cons l ls ih =>
    obtain ⟨t', ht, h⟩ := bind_eq_some_iff.mp h
    exact reach_of_head trivial ht (ih h)

def Along (M : Machine S L) (ok : S → L → S → Prop) : S → List L → Prop
  | _, [] => True
  | s, l :: ls => ∀ t, M.step s l = some t → ok s l t ∧ M.Along ok t ls

/-- Two conditions on steps that agree wherever the invariant holds, which the second one keeps. -/
theorem along_iff {I : S → Prop} (hpq : ∀ s l t, I s → M.step s l = some t → (p s l t ↔ q s l t))
    (hkeep : ∀ s l t, I s → M.step s l = some t → q s l t → I t) (ls : List L) (hs : I s) :
    M.Along p s ls ↔ M.Along q s ls := by
  induction ls generalizing s with
  | nil => exact Iff.rfl
  | cons l ls ih =>
    refine forall_congr' fun t => imp_congr_right fun ht => ?_
    rw [hpq s l t hs ht]
    exact and_congr_right fun hq => ih (hkeep s l t hs ht hq)

/-- A condition on steps that, under an invariant, brings about another one and keeps the
invariant. -/
theorem along_imp {I : S → Prop}
    (hstep : ∀ s l t, I s → M.step s l = some t → p s l t → q s l t ∧ I t) (ls : List L) (hs : I s)
    (h : M.Along p s ls) : M.Along q s ls := by
  induction ls generalizing s with
  | nil => trivial
  | cons l ls ih =>
    intro t ht
    obtain ⟨hp, hrest⟩ := h t ht
    obtain ⟨hq, hI⟩ := hstep s l t hs ht hp
    exact ⟨hq, ih hI hrest⟩

theorem exists_terminal (μ : S → Nat) (hμ : ∀ s l t, M.step s l = some t → μ t < μ s) (s : S) :
    ∃ t, M.Reach anyStep s t ∧ ∀ l, M.step t l = none := by
  induction hn : μ s using Nat.strongRecOn generalizing s with
  | ind n ih =>
    by_cases hs : ∃ l t, M.step s l = some t
    · obtain ⟨l, t, ht⟩ := hs
      obtain ⟨u, hu, hstop⟩ := ih (μ t) (hn ▸ hμ s l t ht) t rfl
      exact ⟨u, reach_of_head trivial ht hu, hstop⟩
    · refine ⟨s, .refl, fun l => ?_⟩
      cases hl : M.step s l with
      | none => rfl
      | some t => exact absurd ⟨l, t, hl⟩ hs

end Machine

end Morf.Lib
