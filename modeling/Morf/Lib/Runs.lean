import Mathlib.Data.List.Basic

/-! The maximal runs of elements with a property in a list. -/

namespace Morf.Lib.Runs

open List

variable {α : Type}

/-- `cur` is the run that has been read so far; a run that ends is collected if `keep` says so. -/
def collect (p : α → Bool) (keep : List α → Bool) : List α → List α → List (List α)
  | cur, [] => [cur].filter keep
  | cur, x :: xs =>
    if p x then collect p keep (cur ++ [x]) xs
    else [cur].filter keep ++ collect p keep [] xs

/-- A stretch of a list whose elements have the property, with none on either side of it. -/
def MaximalRun (p : α → Bool) (l run : List α) : Prop :=
  ∃ before after, l = before ++ run ++ after ∧ (∀ x ∈ run, p x = true) ∧
    (∀ x ∈ before.getLast?, p x = false) ∧ ∀ x ∈ after.head?, p x = false

variable {p : α → Bool}

theorem collect_eq_splitOnP (p : α → Bool) (keep : List α → Bool) (cur l : List α) :
    collect p keep cur l = ((l.splitOnP fun x => !p x).modifyHead (cur ++ ·)).filter keep := by
  induction l generalizing cur with
  | nil => simp [collect]
  | cons x xs ih =>
    rw [collect, splitOnP_cons_eq_if_modifyHead]
    cases hx : p x with
    | true =>
      rw [if_pos rfl, ih, if_neg (by simp), modifyHead_modifyHead]
      simp [Function.comp_def]
    | false =>
      have hid : ∀ l : List (List α), l.modifyHead ([] ++ ·) = l := fun l => by cases l <;> rfl
      rw [if_neg Bool.false_ne_true, ih, hid, if_pos (by simp), modifyHead_cons, append_nil,
        ← filter_append]
      rfl

theorem eq_nil_of_getLast (h : ∀ x ∈ before, p x = true)
    (hlast : ∀ x ∈ before.getLast?, p x = false) : before = [] := by
  by_contra hne
  have hmem := getLast_mem hne
  have hfalse := hlast _ (getLast?_eq_some_getLast hne)
  rw [h _ hmem] at hfalse
  cases hfalse

theorem eq_nil_of_head {after : List α} (h : ∀ x ∈ after, p x = true)
    (hhead : ∀ x ∈ after.head?, p x = false) : after = [] := by
  cases after with
  | nil => rfl
  | cons x xs =>
    have hfalse := hhead x rfl
    rw [h x (by simp)] at hfalse
    cases hfalse

theorem maximalRun_of_all (hl : ∀ x ∈ l, p x = true) : MaximalRun p l run ↔ run = l := by
  constructor
  · rintro ⟨before, after, rfl, -, hbefore, hafter⟩
    have hb := eq_nil_of_getLast (fun x hx => hl x (by simp [hx])) hbefore
    have ha := eq_nil_of_head (fun x hx => hl x (by simp [hx])) hafter
    simp [hb, ha]
  · rintro rfl
    exact ⟨[], [], by simp, hl, by simp, by simp⟩

theorem maximalRun_break (hcur : ∀ x ∈ cur, p x = true) (hb : p b = false) :
    MaximalRun p (cur ++ b :: l) run ↔ run = cur ∨ MaximalRun p l run := by
  constructor
  · rintro ⟨before, after, heq, hrun, hbefore, hafter⟩
    have hnot : b ∉ run := fun h => by simp [hrun b h] at hb
    rw [append_assoc] at heq
    rcases append_eq_append_iff.mp heq with ⟨a, rfl, htail⟩ | ⟨a, rfl, htail⟩
    · cases a with
      | nil =>
        -- the run would start at `b`: it is empty, and so is what precedes it
        have hempty : run = [] := by
          cases run with
          | nil => rfl
          | cons x xs => simp_all
        rw [append_nil] at hbefore
        exact .inl (hempty.trans (eq_nil_of_getLast hcur hbefore).symm)
      | cons x a =>
        obtain ⟨rfl, rfl⟩ := cons.inj htail
        refine .inr ⟨a, after, by simp, hrun, fun y hy => hbefore y ?_, hafter⟩
        rw [getLast?_append, getLast?_cons, Option.mem_def.mp hy]
        rfl
    · obtain rfl := eq_nil_of_getLast (fun x hx => hcur x (by simp [hx])) hbefore
      rw [nil_append] at hcur ⊢
      rcases append_eq_append_iff.mp htail with ⟨c, rfl, hrest⟩ | ⟨c, rfl, hrest⟩
      · have hc : c = [] := by
          refine eq_nil_of_head (fun x hx => hcur x (by simp [hx])) fun x hx => hafter x ?_
          cases c with
          | nil => cases hx
          | cons y c => simpa [hrest] using hx
        simp [hc]
      · cases c with
        | nil => simp
        | cons x c => simp_all
  · rintro (rfl | ⟨before, after, rfl, hrun, hbefore, hafter⟩)
    · exact ⟨[], b :: l, by simp, hcur, by simp, by simpa using hb⟩
    · refine ⟨cur ++ b :: before, after, by simp, hrun, fun x hx => ?_, hafter⟩
      rw [getLast?_append, getLast?_cons] at hx
      cases hlast : before.getLast? with
      | none => simp_all
      | some y => exact hbefore x (by simp_all)

theorem mem_collect (hcur : ∀ x ∈ cur, p x = true) :
    run ∈ collect p keep cur l ↔ keep run = true ∧ MaximalRun p (cur ++ l) run := by
  induction l generalizing cur with
  | nil =>
    rw [append_nil, maximalRun_of_all hcur, collect, mem_filter, mem_singleton,
      and_comm]
  | cons x xs ih =>
    rw [collect]
    cases hx : p x with
    | true =>
      rw [if_pos rfl, ih (by simpa [or_imp, forall_and, hx] using hcur), append_assoc]
      rfl
    | false =>
      rw [if_neg Bool.false_ne_true, mem_append, mem_filter, mem_singleton,
        ih (by simp), maximalRun_break hcur hx, nil_append, and_comm, ← and_or_left]

theorem mem_collect_nil :
    run ∈ collect p keep [] l ↔ keep run = true ∧ MaximalRun p l run :=
  mem_collect (by simp)

end Morf.Lib.Runs
