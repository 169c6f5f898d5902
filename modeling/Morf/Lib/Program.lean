import Mathlib.Logic.Function.Basic
import Morf.Lib.Machine

/-! Programs that work on a shared store one command at a time, and the local
protocols that such programs follow.  A program only sees the replies to its own
commands; what other programs do to the store in between is left open. -/

namespace Morf.Lib

/-- A program over commands `C`, where `c : C` is answered by an `R c`. -/
inductive Prog (C : Type) (R : C → Type) (α : Type) : Type
  | ret : α → Prog C R α
  | call : (c : C) → (R c → Prog C R α) → Prog C R α

variable {M : Type} {R : C → Type} {α : Type}

namespace Prog

def bind : Prog C R α → (α → Prog C R β) → Prog C R β
  | .ret a, f => f a
  | .call c k, f => .call c (fun r => (k r).bind f)

instance : Monad (Prog C R) where
  pure := .ret
  bind := bind

def cmd (c : C) : Prog C R (R c) := .call c .ret

@[simp] theorem pure_eq (a : α) : (pure a : Prog C R α) = .ret a := rfl

@[simp] theorem ret_bind (a : α) (f : α → Prog C R β) : (Prog.ret a >>= f) = f a := rfl

@[simp] theorem call_bind (c : C) (k : R c → Prog C R α) (f : α → Prog C R β) :
    (Prog.call c k >>= f) = .call c (fun r => k r >>= f) := rfl

@[simp] theorem cmd_bind (c : C) (f : R c → Prog C R β) :
    (cmd c >>= f) = .call c f := rfl

end Prog

def Prog.drive {S : Type} (exec : S → (c : C) → Option (R c × S)) :
    Prog C R α → S → Option (α × S)
  | .ret a, s => some (a, s)
  | .call c k, s => (exec s c).bind fun (r, t) => (k r).drive exec t

theorem Prog.drive_bind {exec : S → (c : C) → Option (R c × S)} (p : Prog C R α)
    (f : α → Prog C R β) (s : S) :
    (p >>= f).drive exec s = (p.drive exec s).bind fun (a, t) => (f a).drive exec t := by
  induction p generalizing s with
  | ret a => rfl
  | call c k ih =>
    rw [call_bind, drive, drive, Option.bind_assoc]
    congr 1
    funext ⟨r, t⟩
    exact ih r t

abbrev Protocol (C : Type) (R : C → Type) (M : Type) := M → (c : C) → R c → Option M

/-- `p` never issues a command out of turn when started at position `m`, whatever
the replies, and returns only at positions that meet `post`. -/
def Prog.Obeys (P : Protocol C R M) (post : M → α → Prop) : Prog C R α → M → Prop
  | .ret a, m => post m a
  | .call c k, m => ∀ r, ∃ m', P m c r = some m' ∧ (k r).Obeys P post m'

namespace Prog.Obeys

variable {post : M → α → Prop}

@[simp] theorem ret_iff : (Prog.ret a : Prog C R α).Obeys P post m ↔ post m a :=
  Iff.rfl

theorem mono {p : Prog C R α} (h : p.Obeys P post m) (hp : ∀ m a, post m a → post' m a) :
    p.Obeys P post' m := by
  induction p generalizing m with
  | ret a => exact hp m a h
  | call c k ih =>
    intro r
    obtain ⟨m', hm, hk⟩ := h r
    exact ⟨m', hm, ih r hk⟩

theorem bind {p : Prog C R β} (h : p.Obeys P (fun m b => (f b).Obeys P post m) m) :
    (p >>= f).Obeys P post m := by
  induction p generalizing m with
  | ret b => exact h
  | call c k ih =>
    intro r
    obtain ⟨m', hm, hk⟩ := h r
    exact ⟨m', hm, ih r hk⟩

end Prog.Obeys

/-! Programs that run at the same time on one store, a command at a time and in any order, and the
positions at which such programs stand. -/

structure Script (C : Type) (R : C → Type) (α M : Type) where
  prog : M → Prog C R α
  next : M → (c : C) → R c → M
  law : ∀ {m c k}, prog m = .call c k → ∀ r, k r = prog (next m c r)

def Prog.result {C α : Type} {R : C → Type} : Prog C R α → Option α
  | .ret a => some a
  | .call _ _ => none

theorem Prog.result_eq_some {R : C → Type} {p : Prog C R α} {a : α} :
    p.result = some a ↔ p = .ret a := by
  cases p <;> simp [result]

structure Crew (S C : Type) (R : C → Type) (ι α : Type) where
  store : S
  prog : ι → Prog C R α

namespace Crew

variable {S C E ι α : Type} {R : C → Type} [DecidableEq ι]

def step (exec : S → (c : C) → E → Option (R c × S)) (s : Crew S C R ι α) :
    ι × E → Option (Crew S C R ι α)
  | (i, e) =>
    match s.prog i with
    | .ret _ => none
    | .call c k => (exec s.store c e).map fun (r, σ) => ⟨σ, Function.update s.prog i (k r)⟩

def machine (exec : S → (c : C) → E → Option (R c × S)) (s : Crew S C R ι α) :
    Machine (Crew S C R ι α) (ι × E) := ⟨s, step exec⟩

end Crew

namespace Script

variable {C M ι α : Type} {R : C → Type} [DecidableEq ι] {sc : Script C R α M}
  {exec : S → (c : C) → E → Option (R c × S)} {m : ι → M}

def crew (sc : Script C R α M) (σ : S) (m : ι → M) : Crew S C R ι α := ⟨σ, fun i => sc.prog (m i)⟩

theorem crew_step (h : (sc.crew σ m).step exec (i, e) = some t) :
    ∃ c k r σ', sc.prog (m i) = .call c k ∧ exec σ c e = some (r, σ') ∧
      t = sc.crew σ' (Function.update m i (sc.next (m i) c r)) := by
  unfold Crew.step at h
  cases hp : sc.prog (m i) with
  | ret a => simp [crew, hp] at h
  | call c k =>
    simp only [crew, hp] at h
    obtain ⟨⟨r, σ'⟩, he, rfl⟩ := Option.map_eq_some_iff.mp h
    refine ⟨c, k, r, σ', rfl, he, ?_⟩
    have hprog : Function.update (fun i => sc.prog (m i)) i (k r) =
        fun i' => sc.prog (Function.update m i (sc.next (m i) c r) i') := by
      rw [sc.law hp r]
      exact (Function.comp_update sc.prog m i _).symm
    rw [crew, hprog]

theorem crew_invariant {I : S → (ι → M) → Prop} (h0 : I σ m)
    (hstep : ∀ σ m i e c k r σ', I σ m → ok (sc.crew σ m) (i, e) → sc.prog (m i) = .call c k →
      exec σ c e = some (r, σ') → I σ' (Function.update m i (sc.next (m i) c r)))
    (h : (Crew.machine exec s).Reach ok (sc.crew σ m) t) :
    ∃ σ' m', t = sc.crew σ' m' ∧ I σ' m' := by
  refine h.invariant (I := fun t => ∃ σ' m', t = sc.crew σ' m' ∧ I σ' m') ⟨σ, m, rfl, h0⟩ ?_
  rintro _ ⟨i, e⟩ u ⟨σ, m, rfl, hI⟩ hok hu
  obtain ⟨c, k, r, σ', hp, he, rfl⟩ := crew_step hu
  exact ⟨σ', _, rfl, hstep σ m i e c k r σ' hI hok hp he⟩

end Script

end Morf.Lib
