import Mathlib.Data.List.TakeWhile
import Mathlib.Data.List.Basic

/-! The segments of a list that start at its marked entries, and a pass with a buffer that cuts them
out. -/

namespace Morf.Lib

open List

variable {α β σ : Type}

def segments (p : α → Bool) : List α → List (α × List α)
  | [] => []
  | x :: xs => if p x then (x, xs.takeWhile (!p ·)) :: segments p xs else segments p xs

section Segments

variable {p : α → Bool} {xs : List α}

theorem segments_cons_of_not (hx : p x = false) : segments p (x :: xs) = segments p xs := by
  rw [segments, hx, if_neg Bool.false_ne_true]

theorem segments_append_of_none (h : ∀ x ∈ xs, p x = false) :
    segments p (xs ++ ys) = segments p ys := by
  induction xs with
  | nil => rfl
  | cons x xs ih =>
    obtain ⟨hx, hxs⟩ := forall_mem_cons.mp h
    rw [cons_append, segments_cons_of_not hx, ih hxs]

theorem takeWhile_congr (h : ∀ x ∈ xs, p x = q x) : xs.takeWhile p = xs.takeWhile q := by
  induction xs with
  | nil => rfl
  | cons x xs ih =>
    obtain ⟨hx, hxs⟩ := forall_mem_cons.mp h
    rw [takeWhile_cons, takeWhile_cons, hx, ih hxs]

theorem segments_congr (h : ∀ x ∈ xs, p x = q x) : segments p xs = segments q xs := by
  induction xs with
  | nil => rfl
  | cons x xs ih =>
    obtain ⟨hx, hxs⟩ := forall_mem_cons.mp h
    have htake : xs.takeWhile (!p ·) = xs.takeWhile (!q ·) :=
      takeWhile_congr fun y hy => by rw [hxs y hy]
    rw [segments, segments, hx, htake, ih hxs]

theorem map_fst_segments (p : α → Bool) (xs : List α) :
    (segments p xs).map Prod.fst = xs.filter p := by
  induction xs with
  | nil => rfl
  | cons x xs ih =>
    rw [segments, filter_cons]
    split
    · rw [map_cons, ih]
    · exact ih

theorem mem_segments (h : s ∈ segments p xs) :
    p s.1 = true ∧ s.1 ∈ xs ∧ ∀ y ∈ s.2, y ∈ xs ∧ p y = false := by
  induction xs with
  | nil => cases h
  | cons x xs ih =>
    have hlater : s ∈ segments p xs → _ := fun h =>
      let ⟨hp, hmem, hrest⟩ := ih h
      (⟨hp, mem_cons_of_mem x hmem, fun y hy =>
        ⟨mem_cons_of_mem x (hrest y hy).1, (hrest y hy).2⟩⟩ :
        p s.1 = true ∧ s.1 ∈ x :: xs ∧ ∀ y ∈ s.2, y ∈ x :: xs ∧ p y = false)
    rw [segments] at h
    split at h
    · rename_i hx
      rcases mem_cons.mp h with rfl | h
      · refine ⟨hx, mem_cons_self, fun y hy => ⟨?_, ?_⟩⟩
        · exact mem_cons_of_mem x ((takeWhile_sublist _).subset hy)
        · simpa using mem_takeWhile_imp hy
      · exact hlater h
    · exact hlater h

section Blocks

variable {head : β → α} {tail : β → List α} {bs : List β}

theorem takeWhile_blocks (h : ∀ b ∈ bs, ∀ x ∈ tail b, p x = false) :
    (bs.flatMap fun b => head b :: tail b).takeWhile (!p ·) =
      (bs.takeWhile fun b => !p (head b)).flatMap fun b => head b :: tail b := by
  induction bs with
  | nil => rfl
  | cons b bs ih =>
    obtain ⟨hb, hbs⟩ := forall_mem_cons.mp h
    rw [flatMap_cons, cons_append, takeWhile_cons, takeWhile_cons]
    split
    · rw [takeWhile_append_of_pos fun x hx => by rw [hb x hx]; rfl, ih hbs, flatMap_cons]
      rfl
    · rfl

theorem segments_blocks (h : ∀ b ∈ bs, ∀ x ∈ tail b, p x = false) :
    segments p (bs.flatMap fun b => head b :: tail b) =
      (segments (fun b => p (head b)) bs).map fun s =>
        (head s.1, tail s.1 ++ s.2.flatMap fun b => head b :: tail b) := by
  induction bs with
  | nil => rfl
  | cons b bs ih =>
    obtain ⟨hb, hbs⟩ := forall_mem_cons.mp h
    rw [flatMap_cons, cons_append, segments, segments, segments_append_of_none hb, ih hbs]
    split
    · rw [takeWhile_append_of_pos fun x hx => by rw [hb x hx]; rfl, takeWhile_blocks hbs,
        map_cons]
    · rfl

theorem segments_map (f : β → α) (bs : List β) :
    segments p (bs.map f) =
      (segments (fun b => p (f b)) bs).map fun s => (f s.1, s.2.map f) := by
  have hmap : ∀ l : List β, l.map f = l.flatMap fun b => f b :: [] := fun l => by
    induction l with
    | nil => rfl
    | cons b l ih => rw [map_cons, flatMap_cons, ih]; rfl
  rw [hmap, segments_blocks (by simp)]
  refine map_congr_left fun s _ => ?_
  rw [nil_append, ← hmap]

end Blocks

theorem filterMap_segments_append {f : α × List α → Option β}
    (hmore : ∀ x zs ws, (∀ w ∈ ws, w ∈ ys) → f (x, zs ++ ws) = f (x, zs))
    (hnone : ∀ s ∈ segments p ys, f s = none) :
    (segments p (xs ++ ys)).filterMap f = (segments p xs).filterMap f := by
  induction xs with
  | nil => exact filterMap_eq_nil_iff.mpr hnone
  | cons x xs ih =>
    have htake : f (x, (xs ++ ys).takeWhile (!p ·)) = f (x, xs.takeWhile (!p ·)) := by
      rw [takeWhile_append]
      split
      · rename_i hlen
        rw [hmore x _ _ fun w hw => (takeWhile_sublist _).subset hw,
          (takeWhile_sublist _).eq_of_length hlen]
      · rfl
    rw [cons_append, segments, segments]
    split
    · rw [filterMap_cons, filterMap_cons, htake, ih]
    · exact ih

end Segments

/-- A pass over a list that collects each segment in a buffer. An entry that does not belong to the
segment ends it, and may be looked at again. -/
structure Scanner (α σ : Type) where
  starts : α → Bool
  belongs : α → Bool
  again : α → Bool
  flush : σ → List α → σ

namespace Scanner

structure State (α σ : Type) where
  out : σ
  current : List α
  inside : Bool

variable (m : Scanner α σ)

def pass (s : State α σ) (x : α) : State α σ × Bool :=
  if m.starts x then
    (⟨if s.inside ∧ s.current ≠ [] then m.flush s.out s.current else s.out, [x], true⟩, false)
  else if s.inside then
    if m.belongs x then ({ s with current := s.current ++ [x] }, false)
    else ({ s with out := m.flush s.out s.current, inside := false }, m.again x)
  else (s, false)

def visit (s : State α σ) (x : α) : State α σ :=
  let t := m.pass s x
  if t.2 then (m.pass t.1 x).1 else t.1

def run (init : σ) (xs : List α) : σ :=
  let s := xs.foldl m.visit ⟨init, [], false⟩
  if s.inside ∧ s.current ≠ [] then m.flush s.out s.current else s.out

variable {m} {xs : List α}

theorem foldl_visit (h : ∀ x ∈ xs, m.starts x = false → m.belongs x = true) (s : State α σ)
    (hs : s.inside = true → s.current ≠ []) :
    (let t := xs.foldl m.visit s
      if t.inside ∧ t.current ≠ [] then m.flush t.out t.current else t.out) =
    (segments m.starts xs).foldl (fun out g => m.flush out (g.1 :: g.2))
      (if s.inside then m.flush s.out (s.current ++ xs.takeWhile (!m.starts ·)) else s.out) := by
  induction xs generalizing s with
  | nil =>
    obtain ⟨out, current, inside⟩ := s
    cases inside with
    | false => rfl
    | true => simp [segments, hs rfl]
  | cons x xs ih =>
    obtain ⟨out, current, inside⟩ := s
    obtain ⟨hx, hxs⟩ := forall_mem_cons.mp h
    rw [foldl_cons, segments, takeWhile_cons]
    cases hstart : m.starts x with
    | true =>
      have hvisit : m.visit ⟨out, current, inside⟩ x =
          ⟨if inside then m.flush out current else out, [x], true⟩ := by
        cases inside with
        | false => simp [visit, pass, hstart]
        | true => simp [visit, pass, hstart, hs rfl]
      rw [hvisit, ih hxs _ (by simp)]
      simp
    | false =>
      cases inside with
      | false =>
        have hvisit : m.visit ⟨out, current, false⟩ x = ⟨out, current, false⟩ := by
          simp [visit, pass, hstart]
        rw [hvisit, ih hxs _ (by simp)]
        simp
      | true =>
        have hvisit : m.visit ⟨out, current, true⟩ x = ⟨out, current ++ [x], true⟩ := by
          simp [visit, pass, hstart, hx hstart]
        rw [hvisit, ih hxs _ (by simp)]
        simp

theorem run_eq (h : ∀ x ∈ xs, m.starts x = false → m.belongs x = true) (init : σ) :
    m.run init xs = (segments m.starts xs).foldl (fun out g => m.flush out (g.1 :: g.2)) init :=
  foldl_visit h ⟨init, [], false⟩ nofun

end Scanner

section Alignment

variable {f g : α → Option β} {l : List α}

theorem length_filterMap_le (h : ∀ x ∈ l, (g x).isSome = true → (f x).isSome = true) :
    (l.filterMap g).length ≤ (l.filterMap f).length := by
  induction l with
  | nil => exact Nat.le_refl 0
  | cons x l ih =>
    obtain ⟨hx, hl⟩ := forall_mem_cons.mp h
    have ih := ih hl
    rw [filterMap_cons, filterMap_cons]
    cases hg : g x with
    | none =>
      cases f x with
      | none => exact ih
      | some b => exact Nat.le_succ_of_le ih
    | some b =>
      obtain ⟨c, hf⟩ := Option.isSome_iff_exists.mp (hx (by rw [hg]; rfl))
      rw [hf]
      exact Nat.succ_le_succ ih

theorem filterMap_eq_iff (h : ∀ x ∈ l, (g x).isSome = true → (f x).isSome = true) :
    l.filterMap f = l.filterMap g ↔ ∀ x ∈ l, f x = g x := by
  refine ⟨fun heq => ?_, filterMap_congr⟩
  induction l with
  | nil => simp
  | cons x l ih =>
    obtain ⟨hx, hl⟩ := forall_mem_cons.mp h
    have hle := length_filterMap_le hl
    rw [filterMap_cons, filterMap_cons] at heq
    refine forall_mem_cons.mpr ?_
    cases hg : g x with
    | none =>
      cases hf : f x with
      | none =>
        rw [hg, hf] at heq
        exact ⟨rfl, ih hl heq⟩
      | some b =>
        -- one result more cannot be made up for
        rw [hg, hf] at heq
        have hlen := congrArg List.length heq
        simp only [length_cons] at hlen
        omega
    | some b =>
      obtain ⟨c, hf⟩ := Option.isSome_iff_exists.mp (hx (by rw [hg]; rfl))
      rw [hg, hf] at heq
      obtain ⟨hc, heq⟩ := cons.inj heq
      exact ⟨by rw [hf, hc], ih hl heq⟩

end Alignment

end Morf.Lib
