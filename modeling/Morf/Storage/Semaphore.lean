import Morf.Storage.Inflight

/-! The byte semaphore of `storage/s3.go` under any interleaving of its locked steps. -/

namespace Morf.Storage.ByteSemaphore

open Morf.Lib

/-- A caller of `acquire`; `asleep` is in `cond.Wait`, `asking` is about to test the budget. -/
inductive User
  | idle
  | asking (n : Int)
  | asleep (n : Int)
  | holding (weight : Nat)

namespace User

def weight : User → Nat
  | .holding weight => weight
  | .idle | .asking _ | .asleep _ => 0

def wake : User → User
  | .asleep n => .asking n
  | u => u

end User

structure Shared (ι : Type) where
  sem : ByteSemaphore
  user : ι → User := fun _ => .idle

/-- `broadcast` is that of a context that ends. -/
inductive Event (ι : Type)
  | acquire (i : ι) (n : Int)
  | check (i : ι)
  | cancel (i : ι)
  | broadcast
  | release (i : ι)

namespace Shared

variable [DecidableEq ι]

def step (s : Shared ι) : Event ι → Option (Shared ι)
  | .acquire i n =>
    match s.user i with
    | .idle => some { s with user := Function.update s.user i (.asking n) }
    | _ => none
  | .check i =>
    match s.user i with
    | .asking n =>
      match s.sem.acquire n with
      | some (weight, sem) => some ⟨sem, Function.update s.user i (.holding weight)⟩
      | none => some { s with user := Function.update s.user i (.asleep n) }
    | _ => none
  | .cancel i =>
    match s.user i with
    | .asking n =>
      if s.sem.avail < s.sem.clamp n then some { s with user := Function.update s.user i .idle }
      else none
    | _ => none
  | .broadcast => some { s with user := fun i => (s.user i).wake }
  | .release i =>
    match s.user i with
    | .holding weight =>
      some ⟨s.sem.release weight, fun k => (Function.update s.user i .idle k).wake⟩
    | _ => none

def machine (ι : Type) [DecidableEq ι] (capacity : Int) : Machine (Shared ι) (Event ι) :=
  ⟨⟨newByteSemaphore capacity, fun _ => .idle⟩, step⟩

variable [Fintype ι] {s : Shared ι} {b : ByteSemaphore}

/-- Nobody sleeps who could go on. -/
structure Sound (s : Shared ι) : Prop where
  balanced : s.sem.avail + ∑ i, (s.user i).weight = s.sem.cap
  asleep : ∀ {i n}, s.user i = .asleep n → s.sem.avail < s.sem.clamp n

theorem weight_wake (u : User) : u.wake.weight = u.weight := by
  cases u <;> rfl

theorem wake_ne_asleep (u : User) (n : Int) : u.wake ≠ .asleep n := by
  cases u <;> simp [User.wake]

theorem clamp_of_le {weight : Nat} (h : weight ≤ b.cap) : b.clamp weight = weight := by
  unfold clamp
  dsimp only
  split <;> split <;> omega

theorem Sound.move (hs : s.Sound) (hi : (s.user i).weight = 0) (hu : u.weight = 0)
    (hsleep : ∀ {n}, u = .asleep n → s.sem.avail < s.sem.clamp n) :
    Sound { s with user := Function.update s.user i u } := by
  refine ⟨?_, fun {k n} hk => ?_⟩
  · have hsum := Tally.sum_apply_update User.weight s.user i u
    have := hs.balanced
    dsimp only
    omega
  · by_cases hki : k = i
    · subst hki
      exact hsleep (by simpa using hk)
    · exact hs.asleep (by simpa [hki] using hk)

theorem Sound.grant {weight : Nat} (hs : s.Sound) (hi : (s.user i).weight = 0)
    (ha : s.sem.acquire n = some (weight, b)) :
    Sound ⟨b, Function.update s.user i (.holding weight)⟩ := by
  unfold acquire at ha
  split at ha <;> cases ha
  refine ⟨?_, fun {k m} hk => ?_⟩
  · have hsum := Tally.sum_apply_update User.weight s.user i (.holding (s.sem.clamp n))
    have := hs.balanced
    have hweight : (User.holding (s.sem.clamp n)).weight = s.sem.clamp n := rfl
    dsimp only
    omega
  · by_cases hki : k = i
    · subst hki
      simp at hk
    · exact Nat.lt_of_le_of_lt (Nat.sub_le ..) (hs.asleep (by simpa [hki] using hk))

theorem Sound.release {weight : Nat} (hs : s.Sound) (hi : s.user i = .holding weight) :
    Sound ⟨s.sem.release weight, fun k => (Function.update s.user i .idle k).wake⟩ := by
  refine ⟨?_, fun {k n} hk => (wake_ne_asleep _ _ hk).elim⟩
  have hsum := Tally.sum_apply_update User.weight s.user i .idle
  have hbalanced := hs.balanced
  have hweight : (s.user i).weight = weight := by rw [hi]; rfl
  have hidle : User.idle.weight = 0 := rfl
  have hle : weight ≤ s.sem.cap := by
    have := Finset.single_le_sum (fun i _ => Nat.zero_le (s.user i).weight) (Finset.mem_univ i)
    omega
  simp only [weight_wake, ByteSemaphore.release, clamp_of_le hle]
  omega

theorem Sound.step {e : Event ι} (hs : s.Sound) (h : s.step e = some t) : t.Sound := by
  have zero : ∀ {i u}, s.user i = u → u.weight = 0 → (s.user i).weight = 0 := by
    rintro i _ rfl hu
    exact hu
  cases e with
  | acquire i n =>
    simp only [Shared.step] at h
    split at h <;> cases h
    exact hs.move (zero ‹_› rfl) rfl nofun
  | check i =>
    simp only [Shared.step] at h
    split at h
    · rename_i n hi
      split at h <;> cases h
      · exact hs.grant (zero hi rfl) ‹_›
      · rename_i hnone
        refine hs.move (zero hi rfl) rfl fun {m} hm => ?_
        cases hm
        unfold acquire at hnone
        split at hnone
        · assumption
        · cases hnone
    · cases h
  | cancel i =>
    simp only [Shared.step] at h
    split at h
    · split at h <;> cases h
      exact hs.move (zero ‹_› rfl) rfl nofun
    · cases h
  | broadcast =>
    cases h
    refine ⟨?_, fun {k n} hk => (wake_ne_asleep _ _ hk).elim⟩
    simp only [weight_wake]
    exact hs.balanced
  | release i =>
    simp only [Shared.step] at h
    split at h <;> cases h
    exact hs.release ‹_›

theorem Sound.init (capacity : Int) : (machine ι capacity).init.Sound :=
  ⟨by simp [machine, newByteSemaphore, User.weight], nofun⟩

end Shared

end Morf.Storage.ByteSemaphore
