import Mathlib.Init

/-! Bodies of functions that may fail, change a state and register clean-up actions, which
run when the function returns, the latest first, whether it has failed or not. -/

namespace Morf.Lib

abbrev Body (σ ε : Type) := ExceptT ε (StateM (σ × List (σ → σ)))

variable {σ ε α : Type}

def reject (b : Bool) (e : ε) : Except ε Unit := if b then .error e else .ok ()

@[simp] theorem reject_ok : reject b e = .ok u ↔ b = false := by
  cases b <;> simp [reject]

theorem except_bind_ok {f : α → Except ε β} {b : β} :
    (x >>= f) = .ok b ↔ ∃ a, x = .ok a ∧ f a = .ok b := by
  cases x with
  | error e => exact ⟨nofun, fun ⟨_, h, _⟩ => nomatch h⟩
  | ok a => exact ⟨fun h => ⟨a, rfl, h⟩, fun ⟨_, h, h'⟩ => by cases h; exact h'⟩

namespace Body

def get : Body σ ε σ := fun s => (.ok s.1, s)

def modify (f : σ → σ) : Body σ ε Unit := fun s => (.ok (), f s.1, s.2)

def defer (f : σ → σ) : Body σ ε Unit := fun s => (.ok (), s.1, f :: s.2)

def lift (e : Except ε α) : Body σ ε α := fun s => (e, s)

def raise : Option ε → Body σ ε Unit
  | none => pure ()
  | some e => throw e

def wrap {ε' : Type} (f : ε → ε') (b : Body σ ε α) : Body σ ε' α := fun s =>
  ((b s).1.mapError f, (b s).2)

/-- A call: the deferred actions see the state that the body leaves behind, and its result
is already fixed. -/
def call (b : Body σ ε α) (s : σ) : Except ε α × σ :=
  let r := b (s, [])
  (r.1, r.2.2.foldl (fun s f => f s) r.2.1)

section Success

variable {b : β} {s : σ × List (σ → σ)}

theorem bind_ok {x : Body σ ε α} :
    (x >>= f) s = (.ok b, s') ↔ ∃ a t, x s = (.ok a, t) ∧ f a t = (.ok b, s') := by
  simp only [bind, ExceptT.bind, ExceptT.mk, StateT.bind]
  rcases x s with ⟨e | a, t⟩
  · exact ⟨nofun, nofun⟩
  · exact ⟨fun h => ⟨a, t, rfl, h⟩, fun ⟨_, _, h, h'⟩ => by cases h; exact h'⟩

@[simp] theorem pure_ok : (pure a : Body σ ε α) s = (.ok a', s') ↔ a = a' ∧ s = s' :=
  ⟨fun h => by cases h; exact ⟨rfl, rfl⟩, fun ⟨h, h'⟩ => by cases h; cases h'; rfl⟩

@[simp] theorem throw_ok : (throw e : Body σ ε α) s = (.ok a, s') ↔ False :=
  ⟨nofun, nofun⟩

@[simp] theorem get_ok : (get : Body σ ε σ) s = (.ok t, s') ↔ s.1 = t ∧ s = s' :=
  (iff_of_eq (Prod.mk.injEq ..)).trans (by simp)

@[simp] theorem modify_ok : (modify f : Body σ ε Unit) s = (.ok u, s') ↔ (f s.1, s.2) = s' :=
  (iff_of_eq (Prod.mk.injEq ..)).trans (by simp)

@[simp] theorem defer_ok : (defer f : Body σ ε Unit) s = (.ok u, s') ↔ (s.1, f :: s.2) = s' :=
  (iff_of_eq (Prod.mk.injEq ..)).trans (by simp)

@[simp] theorem lift_ok : lift e s = (.ok a, s') ↔ e = .ok a ∧ s = s' :=
  iff_of_eq (Prod.mk.injEq ..)

@[simp] theorem raise_ok : (raise o : Body σ ε Unit) s = (.ok u, s') ↔ o = none ∧ s = s' := by
  cases o <;> simp [raise]

@[simp] theorem mapError_ok {ε' : Type} {e : Except ε' α} {f : ε' → ε} :
    e.mapError f = .ok a ↔ e = .ok a := by
  cases e with
  | error e => exact iff_of_false (fun h => by cases h) (fun h => by cases h)
  | ok b => exact ⟨fun h => by cases h; rfl, fun h => by cases h; rfl⟩

@[simp] theorem wrap_ok {f : ε → ε'} : wrap f x s = (.ok a, s') ↔ x s = (.ok a, s') := by
  rw [wrap, Prod.mk.injEq, mapError_ok, ← Prod.mk.injEq]
  exact Iff.rfl

theorem call_ok {x : Body σ ε α} : x.call t = (.ok a, u) ↔
    ∃ s', x (t, []) = (.ok a, s') ∧ s'.2.foldl (fun s f => f s) s'.1 = u := by
  simp only [call, Prod.mk.injEq]
  exact ⟨fun h => ⟨_, Prod.ext h.1 rfl, h.2⟩, fun ⟨_, h, h'⟩ => by rw [h]; exact ⟨rfl, h'⟩⟩

end Success

end Body

end Morf.Lib
