import Mathlib.Algebra.GroupWithZero.Nat
import Morf.Lib.Budget
import Morf.Lib.Machine
import Morf.Storage.Backend

/-! Uploads to the object store that run at the same time, and the semaphore of `storage/s3.go`
that is to bound the memory they take. -/

namespace Morf.Storage

open Morf.Lib

def maxS3UploadBytes : Nat := 2 * 2 ^ 30

def defaultS3MaxInflightBytes : Nat := 4 * 2 ^ 30

def inflightCap (maxInflightBytes : Int) : Int :=
  if maxInflightBytes ≤ 0 then defaultS3MaxInflightBytes else maxInflightBytes

structure ByteSemaphore where
  cap : Nat
  avail : Nat

def newByteSemaphore (capacity : Int) : ByteSemaphore :=
  let cap := if capacity < 1 then 1 else capacity.toNat
  ⟨cap, cap⟩

namespace ByteSemaphore

def clamp (b : ByteSemaphore) (n : Int) : Nat :=
  let n := if n < 0 then 0 else n
  if b.cap < n then b.cap else n.toNat

def acquire (b : ByteSemaphore) (n : Int) : Option (Nat × ByteSemaphore) :=
  if b.avail < b.clamp n then none
  else some (b.clamp n, { b with avail := b.avail - b.clamp n })

def release (b : ByteSemaphore) (n : Int) : ByteSemaphore :=
  { b with avail := min b.cap (b.avail + b.clamp n) }

end ByteSemaphore

inductive PutError
  | tooLarge (size : Int)
  | reading (cause : String)
  | overLimit
  | mismatch (got : Nat) (want : Int)
  | seeking (cause : String)
  | budget (cause : String)
  | send (cause : String)
  | status (code : Nat)

/-- One call of `Put`.  `putStreaming` has no body in memory and goes straight to the semaphore. -/
inductive Upload
  | idle
  | reading (size : Int) (body : Bytes)
  | waiting (n : Int) (body : Bytes)
  | sending (weight : Nat) (body : Bytes)
  | done (err : Option PutError)

namespace Upload

def held : Upload → Nat
  | .reading _ body | .waiting _ body | .sending _ body => body.length
  | .idle | .done _ => 0

def outside : Upload → Nat
  | .reading _ body | .waiting _ body => body.length
  | .idle | .sending _ _ | .done _ => 0

def weight : Upload → Nat
  | .sending weight _ => weight
  | .idle | .reading _ _ | .waiting _ _ | .done _ => 0

def put (seekable : Bool) (size : Int) : Upload :=
  if (maxS3UploadBytes : Int) < size then .done (some (.tooLarge size))
  else if 0 ≤ size ∧ seekable then .waiting size []
  else .reading size []

def buffered (size : Int) (body : Bytes) : Upload :=
  if maxS3UploadBytes < body.length then .done (some .overLimit)
  else if 0 ≤ size ∧ (body.length : Int) ≠ size then .done (some (.mismatch body.length size))
  else .waiting body.length body

end Upload

structure Uploads where
  sem : ByteSemaphore
  call : Nat → Upload := fun _ => .idle

/-- What happens to call `n`.  The reader delivers a chunk of at most what `io.LimitReader` leaves,
ends or fails; a blocked acquisition is given up when its context ends. -/
inductive Event
  | put (n : Nat) (seekable : Bool) (size : Int)
  | read (n : Nat) (chunk : Bytes)
  | eof (n : Nat)
  | fault (n : Nat) (cause : String)
  | acquire (n : Nat)
  | cancel (n : Nat) (cause : String)
  | finish (n : Nat) (err : Option String)

namespace Uploads

def set (s : Uploads) (n : Nat) (u : Upload) : Uploads :=
  { s with call := Function.update s.call n u }

def step (s : Uploads) : Event → Option Uploads
  | .put n seekable size =>
    match s.call n with
    | .idle => some (s.set n (.put seekable size))
    | _ => none
  | .read n chunk =>
    match s.call n with
    | .reading size body =>
      if body.length + chunk.length ≤ maxS3UploadBytes + 1 then
        some (s.set n (.reading size (body ++ chunk)))
      else none
    | _ => none
  | .eof n =>
    match s.call n with
    | .reading size body => some (s.set n (.buffered size body))
    | _ => none
  | .fault n cause =>
    match s.call n with
    | .reading _ _ => some (s.set n (.done (some (.reading cause))))
    | _ => none
  | .acquire n =>
    match s.call n with
    | .waiting size body =>
      (s.sem.acquire size).map fun (weight, sem) =>
        { s.set n (.sending weight body) with sem := sem }
    | _ => none
  | .cancel n cause =>
    match s.call n with
    | .waiting size _ =>
      if s.sem.avail < s.sem.clamp size then some (s.set n (.done (some (.budget cause)))) else none
    | _ => none
  | .finish n err =>
    match s.call n with
    | .sending weight _ =>
      some { s.set n (.done (err.map .send)) with sem := s.sem.release weight }
    | _ => none

def init (maxInflightBytes : Int) : Uploads :=
  ⟨newByteSemaphore (inflightCap maxInflightBytes), fun _ => .idle⟩

def machine (maxInflightBytes : Int) : Machine Uploads Event := ⟨init maxInflightBytes, step⟩

/-- A call waits for what it holds, and holds what it has acquired unless that is everything. -/
def Covered (cap : Nat) : Upload → Prop
  | .waiting n body => body.length ≤ n
  | .sending weight body => body.length ≤ weight ∨ weight = cap
  | .idle | .reading _ _ | .done _ => True

structure Sound (cap : Nat) (s : Uploads) : Prop where
  capacity : s.sem.cap = cap
  balanced : Budget.Balanced cap s.sem.avail fun n => (s.call n).weight
  covered : ∀ n, Covered cap (s.call n)

variable {s : Uploads}

theorem init_cap (maxInflightBytes : Int) :
    ((init maxInflightBytes).sem.cap : Int) = inflightCap maxInflightBytes := by
  have hpos : ¬ inflightCap maxInflightBytes < 1 := by
    unfold inflightCap
    split
    · decide
    · omega
  simp only [init, newByteSemaphore, if_neg hpos]
  omega

theorem sound_init (maxInflightBytes : Int) :
    Sound (init maxInflightBytes).sem.cap (init maxInflightBytes) :=
  ⟨rfl, .init _, fun _ => trivial⟩

theorem covered_put (seekable : Bool) (size : Int) : Covered cap (.put seekable size) := by
  unfold Upload.put
  split
  · trivial
  · split
    · exact ‹_ ∧ _›.1
    · trivial

theorem covered_buffered (size : Int) (body : Bytes) : Covered cap (.buffered size body) := by
  unfold Upload.buffered
  split
  · trivial
  · split
    · trivial
    · exact Int.le_refl _

theorem weight_set : (fun m => ((s.set n u).call m).weight) =
    Function.update (fun m => (s.call m).weight) n u.weight :=
  funext fun m => Function.apply_update (fun _ => Upload.weight) s.call n u m

theorem covered_set (hs : ∀ m, Covered cap (s.call m)) (hu : Covered cap u) (m : Nat) :
    Covered cap ((s.set n u).call m) := by
  by_cases hm : m = n
  · subst hm
    simpa only [set, Function.update_self] using hu
  · simpa only [set, Function.update_of_ne hm] using hs m

theorem Sound.move (hs : s.Sound cap) (hn : (s.call n).weight = 0) (hu : u.weight = 0)
    (hc : Covered cap u) : (s.set n u).Sound cap := by
  refine ⟨hs.capacity, ?_, covered_set hs.covered hc⟩
  rw [weight_set, hu, ← hn, Function.update_eq_self]
  exact hs.balanced

theorem Sound.acquire {sem : ByteSemaphore} (hs : s.Sound cap) (hn : s.call n = .waiting size body)
    (ha : s.sem.acquire size = some (weight, sem)) :
    Sound cap { s.set n (.sending weight body) with sem := sem } := by
  have hcov : body.length ≤ size := by
    have := hs.covered n
    rwa [hn] at this
  unfold ByteSemaphore.acquire at ha
  split at ha
  case isTrue => cases ha
  case isFalse hav =>
    cases ha
    refine ⟨hs.capacity, ?_, covered_set hs.covered ?_⟩
    · rw [weight_set]
      exact hs.balanced.take (by rw [hn]; rfl) (Nat.le_of_not_lt hav)
    · show body.length ≤ s.sem.clamp size ∨ s.sem.clamp size = cap
      rw [← hs.capacity]
      unfold ByteSemaphore.clamp
      dsimp only
      split <;> split <;> omega

theorem Sound.finish (hs : s.Sound cap) (hn : s.call n = .sending weight body) :
    Sound cap { s.set n (.done err) with sem := s.sem.release weight } := by
  have hw : (s.call n).weight = weight := by rw [hn]; rfl
  have hle : weight ≤ cap := by
    have := hs.balanced {n}
    simp only [Finset.sum_singleton, hw] at this
    omega
  have hclamp : s.sem.clamp weight = weight := by
    rw [← hs.capacity] at hle
    unfold ByteSemaphore.clamp
    dsimp only
    split <;> split <;> omega
  refine ⟨hs.capacity, ?_, covered_set hs.covered trivial⟩
  rw [weight_set, ByteSemaphore.release, hclamp, ← hw, hs.capacity]
  exact hs.balanced.give

theorem Sound.step (hs : s.Sound cap) (h : s.step e = some t) : t.Sound cap := by
  have idle : ∀ {n u}, s.call n = u → u.weight = 0 → (s.call n).weight = 0 := by
    rintro n _ rfl hu
    exact hu
  cases e with
  | put n seekable size =>
    simp only [Uploads.step] at h
    split at h <;> cases h
    refine hs.move (idle ‹_› rfl) ?_ (covered_put seekable size)
    unfold Upload.put
    split <;> [rfl; split <;> rfl]
  | read n chunk =>
    simp only [Uploads.step] at h
    split at h
    · split at h <;> cases h
      exact hs.move (idle ‹_› rfl) rfl trivial
    · cases h
  | eof n =>
    simp only [Uploads.step] at h
    split at h <;> cases h
    refine hs.move (idle ‹_› rfl) ?_ (covered_buffered ..)
    unfold Upload.buffered
    split <;> [rfl; split <;> rfl]
  | fault n cause =>
    simp only [Uploads.step] at h
    split at h <;> cases h
    exact hs.move (idle ‹_› rfl) rfl trivial
  | acquire n =>
    simp only [Uploads.step] at h
    split at h
    · obtain ⟨⟨weight, sem⟩, ha, h⟩ := Option.map_eq_some_iff.mp h
      cases h
      exact hs.acquire ‹_› ha
    · cases h
  | cancel n cause =>
    simp only [Uploads.step] at h
    split at h
    · split at h <;> cases h
      exact hs.move (idle ‹_› rfl) rfl trivial
    · cases h
  | finish n err =>
    simp only [Uploads.step] at h
    split at h <;> cases h
    exact hs.finish ‹_›

theorem sound_of_reach
    (h : (machine maxInflightBytes).Reach Machine.anyStep (init maxInflightBytes) s) :
    s.Sound (init maxInflightBytes).sem.cap :=
  h.invariant (sound_init maxInflightBytes) fun _ _ _ hs _ ht => hs.step ht

theorem held_le_weight (hu : Covered cap u) (hout : u.outside = 0) :
    u.held ≤ u.weight ∨ u.weight = cap := by
  cases u with
  | sending weight body => exact hu
  | reading _ body | waiting _ body => exact .inl (Nat.le_of_eq hout)
  | idle | done => exact .inl (Nat.le_refl 0)

theorem init_cap_pos (maxInflightBytes : Int) : 0 < (init maxInflightBytes).sem.cap := by
  simp only [init, newByteSemaphore]
  split
  · exact Nat.one_pos
  · omega

/-- If at no moment a body is held that was read past the semaphore together with another body, the
bodies in memory stay below `MaxInflightBytes` or the size of one of them. -/
theorem inflight_bounded (maxInflightBytes : Int) (s : Uploads)
    (h : (machine maxInflightBytes).Reach Machine.anyStep (init maxInflightBytes) s)
    (F : Finset Nat)
    (hone : ∀ n ∈ F, ∀ m ∈ F, n ≠ m → (s.call n).outside = 0 ∨ (s.call m).held = 0) :
    ∑ n ∈ F, (s.call n).held ≤
      max (inflightCap maxInflightBytes).toNat (F.sup fun n => (s.call n).held) := by
  have hs := sound_of_reach h
  have hcap : (inflightCap maxInflightBytes).toNat = (init maxInflightBytes).sem.cap := by
    rw [← init_cap, Int.toNat_natCast]
  rw [hcap]
  by_cases hout : ∀ n ∈ F, (s.call n).outside = 0
  · exact hs.balanced.sum_le (init_cap_pos maxInflightBytes) F fun n hn =>
      held_le_weight (hs.covered n) (hout n hn)
  · -- a body outside the semaphore is the only one there is
    push Not at hout
    obtain ⟨n, hn, hpos⟩ := hout
    rw [Finset.sum_eq_single_of_mem n hn fun m hm hne =>
      (hone n hn m hm hne.symm).resolve_left hpos]
    exact (Finset.le_sup (f := fun n => (s.call n).held) hn).trans (Nat.le_max_right _ _)

/-- A body larger than the budget has all of it while a second call has not read anything yet. -/
theorem large_body_alone : ∃ s : Uploads, (s.call 0).held = 6 ∧
    ∑ n ∈ {0, 1}, (s.call n).held ≤
      max (inflightCap 4).toNat (Finset.sup {0, 1} fun n => (s.call n).held) := by
  obtain ⟨s, hs, hp⟩ : ∃ s, (machine 4).Reach Machine.anyStep (init 4) s ∧
      decide ((s.call 0).held = 6 ∧ (s.call 0).outside = 0 ∧ (s.call 1).outside = 0) = true :=
    Machine.exists_reach_of_execIf (b := fun _ _ => true) (fun _ _ _ => trivial)
      [.put 0 false (-1), .read 0 [1, 2, 3], .read 0 [4, 5, 6], .eof 0, .acquire 0,
        .put 1 true (-1)] (by decide +kernel)
  obtain ⟨hheld, hzero, hone⟩ := of_decide_eq_true hp
  refine ⟨s, hheld, inflight_bounded 4 s hs {0, 1} fun n hn _ _ _ => .inl ?_⟩
  rcases Finset.mem_insert.mp hn with rfl | hn
  · exact hzero
  · rwa [Finset.mem_singleton.mp hn]

/-- Both bodies are read before either call asks the semaphore. -/
theorem bodies_read_past_semaphore : ∃ s,
    (machine 4).Reach Machine.anyStep (init 4) s ∧
      max (inflightCap 4).toNat (Finset.sup {0, 1} fun n => (s.call n).held) <
        ∑ n ∈ {0, 1}, (s.call n).held := by
  obtain ⟨s, hs, hp⟩ : ∃ s, (machine 4).Reach Machine.anyStep (init 4) s ∧
      decide ((s.call 0).held = 3 ∧ (s.call 1).held = 3) = true :=
    Machine.exists_reach_of_execIf (b := fun _ _ => true) (fun _ _ _ => trivial)
      [.put 0 false (-1), .put 1 false (-1), .read 0 [1, 2, 3], .read 1 [4, 5, 6]]
      (by decide +kernel)
  obtain ⟨hzero, hone⟩ := of_decide_eq_true hp
  refine ⟨s, hs, ?_⟩
  rw [Finset.sum_pair Nat.zero_ne_one, Finset.sup_insert, Finset.sup_singleton, hzero, hone]
  decide

end Uploads

end Morf.Storage
