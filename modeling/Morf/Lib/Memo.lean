import Mathlib.Data.List.Forall2
import Mathlib.Logic.Function.Basic

/-! A cache of answers that expire, and passes over a list that thread a state. -/

namespace Morf.Lib

open Function

/-- `now` is the clock and `reads` counts the times it was read. -/
structure Memo (K V : Type) where
  entries : K → Option (V × Nat)
  now : Nat
  reads : Nat

namespace Memo

variable {V : Type} [DecidableEq K]

/-- `delay` is the time that passes before each reading of the clock. -/
structure Policy (V : Type) where
  lifetime : Nat
  keep : V → Bool
  delay : Nat → Nat

def empty : Memo K V := { entries := fun _ => none, now := 0, reads := 0 }

def tick (p : Policy V) (m : Memo K V) : Memo K V :=
  { m with now := m.now + p.delay m.reads, reads := m.reads + 1 }

def get (p : Policy V) (key : K) (m : Memo K V) : Option V × Memo K V :=
  match m.entries key with
  | none => (none, m)
  | some (v, expires) =>
    let m := m.tick p
    if expires < m.now then (none, { m with entries := update m.entries key none })
    else (some v, m)

def set (p : Policy V) (key : K) (v : V) (m : Memo K V) : Memo K V :=
  if p.keep v then
    let m := m.tick p
    { m with entries := update m.entries key (some (v, m.now + p.lifetime)) }
  else m

def fetch (p : Policy V) (key : K) (ask : V) (m : Memo K V) : V × Memo K V :=
  match m.get p key with
  | (some v, m) => (v, m)
  | (none, m) => (ask, m.set p key ask)

variable {p : Policy V} {m : Memo K V}

def Holds (P : K → V → Prop) (m : Memo K V) : Prop :=
  ∀ key v expires, m.entries key = some (v, expires) → P key v

omit [DecidableEq K] in
theorem holds_empty : Holds P (empty : Memo K V) := nofun

theorem Holds.update (hm : Holds P m) (he : ∀ q, e = some q → P key q.1) :
    ∀ key' v expires, update m.entries key e key' = some (v, expires) → P key' v := by
  intro key' v expires h
  by_cases hkey : key' = key
  · subst hkey
    rw [update_self] at h
    exact he _ h
  · rw [update_of_ne hkey] at h
    exact hm key' v expires h

theorem get_cases (p : Policy V) (key : K) (m : Memo K V) :
    m.get p key = (none, m) ∧ m.entries key = none ∨
      ∃ v expires, m.entries key = some (v, expires) ∧
        (m.get p key = (some v, m.tick p) ∨ expires < (m.tick p).now ∧ m.get p key =
          (none, { m.tick p with entries := update m.entries key none })) := by
  cases h : m.entries key with
  | none => exact .inl ⟨by simp [get, h], rfl⟩
  | some e =>
    refine .inr ⟨e.1, e.2, rfl, ?_⟩
    by_cases hlate : e.2 < (m.tick p).now
    · exact .inr ⟨hlate, by rw [get, h]; exact if_pos hlate⟩
    · exact .inl (by rw [get, h]; exact if_neg hlate)

theorem Holds.set (hm : Holds P m) (hask : p.keep ask = true → P key ask) :
    Holds P (m.set p key ask) := by
  rw [Memo.set]
  split
  · rename_i hkeep
    exact Holds.update hm fun q hq => by cases hq; exact hask hkeep
  · exact hm

theorem Holds.fetch (hm : Holds P m) (hask : p.keep ask = true → P key ask) :
    ((m.fetch p key ask).1 = ask ∨ P key (m.fetch p key ask).1) ∧
      Holds P (m.fetch p key ask).2 := by
  obtain ⟨hget, -⟩ | ⟨v, expires, he, hget | ⟨-, hget⟩⟩ := get_cases p key m
  · simp only [Memo.fetch, hget]
    exact ⟨.inl trivial, hm.set hask⟩
  · simp only [Memo.fetch, hget]
    exact ⟨.inr (hm key v expires he), hm⟩
  · simp only [Memo.fetch, hget]
    exact ⟨.inl trivial, Holds.set (Holds.update hm nofun) hask⟩

def Live (key : K) (v : V) (m : Memo K V) : Prop :=
  ∃ expires, m.entries key = some (v, expires) ∧ m.now ≤ expires

section Frozen

variable (hp : ∀ n, p.delay n = 0)
include hp

omit [DecidableEq K] in
theorem now_tick : (m.tick p).now = m.now := by simp [tick, hp]

theorem Live.get (hlive : Live key v m) : m.get p key = (some v, m.tick p) := by
  obtain ⟨expires, he, hnow⟩ := hlive
  simp [Memo.get, he, now_tick hp, Nat.not_lt.mpr hnow]

theorem Live.fetch_self (hlive : Live key v m) : (m.fetch p key ask).1 = v := by
  rw [Memo.fetch, hlive.get hp]

theorem Live.update (hlive : Live key v m) (hne : key ≠ key') (e : Option (V × Nat)) :
    Live key v { m.tick p with entries := update m.entries key' e } := by
  obtain ⟨expires, he, hnow⟩ := hlive
  exact ⟨expires, by simpa [update_of_ne hne] using he, by simpa [now_tick hp] using hnow⟩

omit [DecidableEq K] in
theorem Live.tick (hlive : Live key v m) : Live key v (m.tick p) := by
  obtain ⟨expires, he, hnow⟩ := hlive
  exact ⟨expires, he, by simpa [now_tick hp] using hnow⟩

theorem Live.set (hlive : Live key v m) (hne : key ≠ key') : Live key v (m.set p key' ask) := by
  rw [Memo.set]
  split
  · exact hlive.update hp hne _
  · exact hlive

theorem Live.fetch (hlive : Live key v m) : Live key v (m.fetch p key' ask).2 := by
  by_cases hkey : key = key'
  · subst hkey
    rw [Memo.fetch, hlive.get hp]
    exact hlive.tick hp
  · obtain ⟨hget, -⟩ | ⟨v, expires, he, hget | ⟨-, hget⟩⟩ := get_cases p key' m
    · simp only [Memo.fetch, hget]
      exact hlive.set hp hkey
    · simp only [Memo.fetch, hget]
      exact hlive.tick hp
    · simp only [Memo.fetch, hget]
      exact Live.set hp (hlive.update hp hkey none) hkey

omit hp in
theorem live_fetch (hm : m.entries key = none) (hask : p.keep ask = true) :
    Live key ask (m.fetch p key ask).2 := by
  simp only [Memo.fetch, Memo.get, hm, Memo.set, hask, if_true]
  exact ⟨_, update_self _ _ _, Nat.le_add_right _ _⟩

end Frozen

end Memo

def mapState {α β σ : Type} (f : α → σ → β × σ) : List α → σ → List β × σ
  | [], s => ([], s)
  | a :: as, s =>
    let r := f a s
    let rest := mapState f as r.2
    (r.1 :: rest.1, rest.2)

/-- What each step keeps, the pass keeps; what each step says of its result and of the part `g`
of its argument holds all along. -/
theorem mapState_spec {γ : Type} {f : α → σ → β × σ} {Inv : σ → Prop} {Q : γ → β → Prop} (g : α → γ)
    {l : List α} (hstep : ∀ a ∈ l, ∀ s, Inv s → Q (g a) (f a s).1 ∧ Inv (f a s).2) {s : σ}
    (hs : Inv s) : List.Forall₂ Q (l.map g) (mapState f l s).1 ∧ Inv (mapState f l s).2 := by
  induction l generalizing s with
  | nil => exact ⟨.nil, hs⟩
  | cons a l ih =>
    obtain ⟨hq, hs'⟩ := hstep a (by simp) s hs
    obtain ⟨hrest, hend⟩ := ih (fun b hb => hstep b (by simp [hb])) hs'
    exact ⟨.cons hq hrest, hend⟩

end Morf.Lib
