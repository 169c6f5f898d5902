import Mathlib.Logic.Function.Basic
import Morf.Lib.Machine

/-! The metadata cache of `utils/cache.go` on one pod.  Its keys carry the pattern version, of which
the pod has a copy of its own; every Redis command and every access to that copy is a step, and any
number of calls are under way at once. -/

namespace Morf.Utils

open Morf.Lib
open Function Option Machine

structure Entry (D : Type) where
  data : D
  storedAt : Nat

/-- `version` and `entries` are in Redis, `patternVersion` is the pod's copy.  A key is a pattern
version with the hash of an APK. -/
structure Cache (D : Type) where
  version : Nat := 0
  entries : Nat × List Char → Option (Entry D) := fun _ => none
  clock : Nat := 0
  patternVersion : Nat := 0

inductive Answer (D : Type)
  | refreshed
  | miss
  | hit (e : Entry D)
  | written (ok : Bool)
  | invalidated (ok : Bool)

/-- Where a call stands.  The positions in `loadPatternVersion` say whether a miss has led there. -/
inductive Position (D : Type)
  | loadVersion (missed : Bool)
  | storeVersion (missed : Bool) (v : Nat)
  | keepVersion (missed : Bool)
  | read (apkHash : List Char)
  | get (key : Nat × List Char)
  | write (apkHash : List Char) (data : D)
  | set (key : Nat × List Char) (data : D)
  | bump
  | adopt (v : Nat)
  | publish
  | returned (a : Answer D)

/-- A Redis command is answered, or fails, or is carried out without an answer. -/
inductive Reply
  | ok
  | failed
  | lost
  deriving DecidableEq

inductive CacheCall (D : Type)
  | refreshPatternVersion
  | getMetadataFromCache (apkHash : List Char)
  | setMetadataInCache (apkHash : List Char) (data : D)
  | invalidateAllMetadataCache

variable {D : Type}

def afterLoad (missed : Bool) : Answer D := if missed then .miss else .refreshed

def CacheCall.start : CacheCall D → Position D
  | .refreshPatternVersion => .loadVersion false
  | .getMetadataFromCache apkHash => .read apkHash
  | .setMetadataInCache apkHash data => .write apkHash data
  | .invalidateAllMetadataCache => .bump

namespace Cache

def put (c : Cache D) (key : Nat × List Char) (data : D) : Cache D :=
  { c with entries := update c.entries key (some ⟨data, c.clock⟩), clock := c.clock + 1 }

def incr (c : Cache D) : Cache D := { c with version := c.version + 1 }

def expire (c : Cache D) (key : Nat × List Char) : Cache D :=
  { c with entries := update c.entries key none }

def move (c : Cache D) (r : Reply) : Position D → Option (Cache D × Position D)
  -- `loadPatternVersion`
  | .loadVersion missed =>
    some (c, if r = .ok then .storeVersion missed c.version else .keepVersion missed)
  | .storeVersion missed v => some ({ c with patternVersion := v }, .returned (afterLoad missed))
  | .keepVersion missed => some (c, .returned (afterLoad missed))
  -- `GetMetadataFromCache`
  | .read apkHash => some (c, .get (c.patternVersion, apkHash))
  | .get key =>
    match r, c.entries key with
    | .ok, some e => some (c, .returned (.hit e))
    | .ok, none => some (c, .loadVersion true)
    | _, _ => some (c, .returned .miss)
  -- `SetMetadataInCache`
  | .write apkHash data => some (c, .set (c.patternVersion, apkHash) data)
  | .set key data =>
    match r with
    | .ok => some (c.put key data, .returned (.written true))
    | .failed => some (c, .returned (.written false))
    | .lost => some (c.put key data, .returned (.written false))
  -- `InvalidateAllMetadataCache`
  | .bump =>
    match r with
    | .ok => some (c.incr, .adopt (c.version + 1))
    | .failed => some (c, .returned (.invalidated false))
    | .lost => some (c.incr, .returned (.invalidated false))
  | .adopt v => some ({ c with patternVersion := v }, .publish)
  | .publish => some (c, .returned (.invalidated true))
  | .returned _ => none

end Cache

structure Pod (D : Type) where
  cache : Cache D
  calls : Nat → Option (Position D) := fun _ => none

inductive PodLabel (D : Type)
  | begin (i : Nat) (call : CacheCall D)
  | move (i : Nat) (r : Reply)
  | expire (key : Nat × List Char)

namespace Pod

def step (s : Pod D) : PodLabel D → Option (Pod D)
  | .begin i call =>
    match s.calls i with
    | some _ => none
    | none => some { s with calls := update s.calls i (some call.start) }
  | .move i r =>
    ((s.calls i).bind (s.cache.move r)).map fun (cache, p) =>
      { cache, calls := update s.calls i (some p) }
  | .expire key => some { s with cache := s.cache.expire key }

def machine (c : Cache D) : Machine (Pod D) (PodLabel D) where
  init := { cache := c }
  step := step

end Pod

def Position.pending : Position D → Option Nat
  | .storeVersion _ v | .adopt v => some v
  | _ => none

def Position.key : Position D → Option (Nat × List Char)
  | .get key | .set key _ => some key
  | _ => none

def Position.found : Position D → Option (Entry D)
  | .returned (.hit e) => some e
  | _ => none

namespace Cache

variable {c c' : Cache D} {r : Reply} {p p' : Position D} {key key' : Nat × List Char} {data : D}
  {e : Entry D}

inductive Move (c : Cache D) : Position D → Cache D → Position D → Prop
  | load {missed : Bool} : Move c (.loadVersion missed) c (.storeVersion missed c.version)
  | store {p p' : Position D} {v : Nat} : p.pending = some v → p'.pending = none → p'.key = none →
      p'.found = none → Move c p { c with patternVersion := v } p'
  | read {apkHash : List Char} : Move c (.read apkHash) c (.get (c.patternVersion, apkHash))
  | hit {key : Nat × List Char} {e : Entry D} : c.entries key = some e →
      Move c (.get key) c (.returned (.hit e))
  | write {apkHash : List Char} {data : D} :
      Move c (.write apkHash data) c (.set (c.patternVersion, apkHash) data)
  | put {key : Nat × List Char} {data : D} {ok : Bool} :
      Move c (.set key data) (c.put key data) (.returned (.written ok))
  | bump : Move c .bump c.incr (.adopt (c.version + 1))
  | lost : Move c .bump c.incr (.returned (.invalidated false))
  | other {p p' : Position D} : p.pending = none → p'.pending = none → p'.key = none →
      p'.found = none → Move c p c p'

theorem found_afterLoad (missed : Bool) : (Position.returned (afterLoad missed) : Position D).found = none := by
  cases missed <;> rfl

theorem move_spec (h : c.move r p = some (c', p')) : Move c p c' p' := by
  cases p with
  | loadVersion missed =>
    cases h
    split
    · exact .load
    · exact .other rfl rfl rfl rfl
  | storeVersion missed v =>
    cases h
    exact .store rfl rfl rfl (found_afterLoad missed)
  | keepVersion missed =>
    cases h
    exact .other rfl rfl rfl (found_afterLoad missed)
  | read apkHash =>
    cases h
    exact .read
  | get key =>
    simp only [move] at h
    split at h <;> cases h
    · exact .hit ‹_›
    · exact .other rfl rfl rfl rfl
    · exact .other rfl rfl rfl rfl
  | write apkHash data =>
    cases h
    exact .write
  | set key data =>
    cases r <;> cases h
    · exact .put
    · exact .other rfl rfl rfl rfl
    · exact .put
  | bump =>
    cases r <;> cases h
    · exact .bump
    · exact .other rfl rfl rfl rfl
    · exact .lost
  | adopt v =>
    cases h
    exact .store rfl rfl rfl rfl
  | publish =>
    cases h
    exact .other rfl rfl rfl rfl
  | returned a => cases h

theorem entries_put : (c.put key data).entries key' = some e ↔
    key' = key ∧ e = ⟨data, c.clock⟩ ∨ key' ≠ key ∧ c.entries key' = some e := by
  change update c.entries key (some ⟨data, c.clock⟩) key' = some e ↔ _
  by_cases h : key' = key
  · subst h
    simp [eq_comm]
  · simp [h]

structure Sound (c : Cache D) : Prop where
  patternVersion_le : c.patternVersion ≤ c.version
  key_le : ∀ key e, c.entries key = some e → key.1 ≤ c.version
  storedAt_lt : ∀ key e, c.entries key = some e → e.storedAt < c.clock

structure Reached (c : Cache D) (p : Position D) : Prop where
  pending : ∀ v, p.pending = some v → v ≤ c.version
  key : ∀ key, p.key = some key → key.1 ≤ c.version

theorem Reached.mono (h : c.Reached p) (hle : c.version ≤ c'.version) : c'.Reached p where
  pending v hv := Nat.le_trans (h.pending v hv) hle
  key k hk := Nat.le_trans (h.key k hk) hle

theorem Sound.put (hc : c.Sound) (hkey : key.1 ≤ c.version) (data : D) : (c.put key data).Sound where
  patternVersion_le := hc.patternVersion_le
  key_le key' e he := by
    rcases entries_put.mp he with ⟨rfl, -⟩ | ⟨-, he⟩
    · exact hkey
    · exact hc.key_le key' e he
  storedAt_lt key' e he := by
    rcases entries_put.mp he with ⟨-, rfl⟩ | ⟨-, he⟩
    · exact Nat.lt_succ_self _
    · exact Nat.lt_succ_of_lt (hc.storedAt_lt key' e he)

theorem Sound.incr (hc : c.Sound) : c.incr.Sound where
  patternVersion_le := Nat.le_succ_of_le hc.patternVersion_le
  key_le key e he := Nat.le_succ_of_le (hc.key_le key e he)
  storedAt_lt := hc.storedAt_lt

theorem Sound.move (hc : c.Sound) (hp : c.Reached p) (h : Move c p c' p') :
    c'.Sound ∧ c'.Reached p' ∧ c.version ≤ c'.version := by
  cases h with
  | load => exact ⟨hc, ⟨fun v hv => some.inj hv ▸ Nat.le_refl _, nofun⟩, Nat.le_refl _⟩
  | store hv hpending hkey _ =>
    refine ⟨⟨hp.pending _ hv, hc.key_le, hc.storedAt_lt⟩, ⟨?_, ?_⟩, Nat.le_refl _⟩
    · rw [hpending]; nofun
    · rw [hkey]; nofun
  | read => exact ⟨hc, ⟨nofun, fun k hk => some.inj hk ▸ hc.patternVersion_le⟩, Nat.le_refl _⟩
  | hit => exact ⟨hc, ⟨nofun, nofun⟩, Nat.le_refl _⟩
  | write => exact ⟨hc, ⟨nofun, fun k hk => some.inj hk ▸ hc.patternVersion_le⟩, Nat.le_refl _⟩
  | put => exact ⟨hc.put (hp.key _ rfl) _, ⟨nofun, nofun⟩, Nat.le_refl _⟩
  | bump => exact ⟨hc.incr, ⟨fun v hv => some.inj hv ▸ Nat.le_refl _, nofun⟩, Nat.le_succ _⟩
  | lost => exact ⟨hc.incr, ⟨nofun, nofun⟩, Nat.le_succ _⟩
  | other _ hpending hkey _ =>
    refine ⟨hc, ⟨?_, ?_⟩, Nat.le_refl _⟩
    · rw [hpending]; nofun
    · rw [hkey]; nofun

structure Later (c₀ c : Cache D) : Prop where
  version : c₀.version < c.version
  clock : c₀.clock ≤ c.clock
  old : ∀ key e, c.entries key = some e → e.storedAt < c₀.clock → c₀.entries key = some e

def Empty (c : Cache D) (v : Nat) : Prop := ∀ apkHash, c.entries (v, apkHash) = none

theorem Sound.empty_of_lt (hc : c.Sound) (hv : c.version < v) : c.Empty v := by
  intro apkHash
  cases he : c.entries (v, apkHash) with
  | none => rfl
  | some e => exact absurd (hc.key_le _ e he) (Nat.not_le.mpr hv)

variable {c₀ : Cache D}

theorem Later.put (h : c₀.Later c) (key : Nat × List Char) (data : D) : c₀.Later (c.put key data) where
  version := h.version
  clock := Nat.le_succ_of_le h.clock
  old key' e he hlt := by
    rcases entries_put.mp he with ⟨-, rfl⟩ | ⟨-, he⟩
    · exact absurd hlt (Nat.not_lt.mpr h.clock)
    · exact h.old key' e he hlt

theorem Later.move (h : c₀.Later c) (hc₀ : c₀.Sound)
    (hp : ∀ v, p.pending = some v → c₀.Empty v) (hm : Move c p c' p') :
    c₀.Later c' ∧ (∀ v, p'.pending = some v → c₀.Empty v) ∧
      (p.pending = none ∧ c'.patternVersion = c.patternVersion ∨ c₀.Empty c'.patternVersion) := by
  cases hm with
  | load => exact ⟨h, fun v hv => some.inj hv ▸ hc₀.empty_of_lt h.version, .inl ⟨rfl, rfl⟩⟩
  | store hv hpending _ _ =>
    refine ⟨⟨h.version, h.clock, h.old⟩, ?_, .inr (hp _ hv)⟩
    rw [hpending]; nofun
  | read => exact ⟨h, nofun, .inl ⟨rfl, rfl⟩⟩
  | hit => exact ⟨h, nofun, .inl ⟨rfl, rfl⟩⟩
  | write => exact ⟨h, nofun, .inl ⟨rfl, rfl⟩⟩
  | put => exact ⟨h.put _ _, nofun, .inl ⟨rfl, rfl⟩⟩
  | bump =>
    exact ⟨⟨Nat.lt_succ_of_lt h.version, h.clock, h.old⟩,
      fun v hv => some.inj hv ▸ hc₀.empty_of_lt (Nat.lt_succ_of_lt h.version), .inl ⟨rfl, rfl⟩⟩
  | lost => exact ⟨⟨Nat.lt_succ_of_lt h.version, h.clock, h.old⟩, nofun, .inl ⟨rfl, rfl⟩⟩
  | other hnone hpending _ _ =>
    refine ⟨h, ?_, .inl ⟨hnone, rfl⟩⟩
    rw [hpending]; nofun

structure NoneOld (c₀ : Cache D) (p : Position D) : Prop where
  key : ∀ key, p.key = some key → c₀.Empty key.1
  found : ∀ e, p.found = some e → c₀.clock ≤ e.storedAt

theorem NoneOld.move (hp : c₀.NoneOld p) (h : c₀.Later c) (hcopy : c₀.Empty c.patternVersion)
    (hm : Move c p c' p') : c₀.NoneOld p' := by
  cases hm with
  | load => exact ⟨nofun, nofun⟩
  | store _ _ hkey hfound | other _ _ hkey hfound =>
    refine ⟨?_, ?_⟩
    · rw [hkey]; nofun
    · rw [hfound]; nofun
  | read => exact ⟨fun k hk => some.inj hk ▸ hcopy, nofun⟩
  | write => exact ⟨fun k hk => some.inj hk ▸ hcopy, nofun⟩
  | put => exact ⟨nofun, nofun⟩
  | bump => exact ⟨nofun, nofun⟩
  | lost => exact ⟨nofun, nofun⟩
  | hit he =>
    refine ⟨nofun, fun e' he' => ?_⟩
    obtain rfl := some.inj he'
    refine Nat.not_lt.mp fun hlt => ?_
    exact absurd ((h.old _ _ he hlt).symm.trans (hp.key _ rfl _)) nofun

theorem entries_expire (h : (c.expire key).entries key' = some e) : c.entries key' = some e :=
  of_update (P := (· = some e)) h nofun

theorem Sound.expire (hc : c.Sound) (key : Nat × List Char) : (c.expire key).Sound where
  patternVersion_le := hc.patternVersion_le
  key_le key' e he := hc.key_le key' e (entries_expire he)
  storedAt_lt key' e he := hc.storedAt_lt key' e (entries_expire he)

theorem Later.expire (h : c₀.Later c) (key : Nat × List Char) : c₀.Later (c.expire key) where
  version := h.version
  clock := h.clock
  old key' e he := h.old key' e (entries_expire he)

end Cache

namespace Pod

variable {s t : Pod D} {l : PodLabel D} {i j k : Nat} {p : Position D} {c : Cache D}

theorem step_cases (h : s.step l = some t) :
    (∃ k, ∃ call : CacheCall D, s.calls k = none ∧
        t = { s with calls := update s.calls k (some call.start) }) ∨
      (∃ key, t = { s with cache := s.cache.expire key }) ∨
      ∃ k r p p', s.calls k = some p ∧ s.cache.move r p = some (t.cache, p') ∧
        t.calls = update s.calls k (some p') := by
  cases l with
  | begin k call =>
    simp only [step] at h
    split at h <;> cases h
    exact .inl ⟨k, call, ‹_›, rfl⟩
  | expire key =>
    cases h
    exact .inr (.inl ⟨key, rfl⟩)
  | move k r =>
    obtain ⟨⟨cache, p'⟩, hp', rfl⟩ := map_eq_some_iff.mp h
    obtain ⟨p, hp, hmove⟩ := bind_eq_some_iff.mp hp'
    exact .inr (.inr ⟨k, r, p, p', hp, hmove, rfl⟩)

theorem calls_update {calls : Nat → Option (Position D)}
    (h : update calls k (some p') j = some p) :
    j = k ∧ p = p' ∨ j ≠ k ∧ calls j = some p :=
  (update_cases h).imp_left fun h => ⟨h.1, (some.inj h.2).symm⟩

structure Sound (s : Pod D) : Prop where
  cache : s.cache.Sound
  calls : ∀ k p, s.calls k = some p → s.cache.Reached p
  free : ∃ n, ∀ k, n ≤ k → s.calls k = none

theorem reached_start (c : Cache D) (call : CacheCall D) : c.Reached call.start := by
  cases call <;> exact ⟨nofun, nofun⟩

theorem free_update {calls : Nat → Option (Position D)} (h : ∃ n, ∀ k, n ≤ k → calls k = none) (i : Nat)
    (p : Option (Position D)) : ∃ n, ∀ k, n ≤ k → update calls i p k = none := by
  obtain ⟨n, hn⟩ := h
  refine ⟨max n (i + 1), fun k hk => ?_⟩
  rw [update_of_ne (by omega)]
  exact hn k (by omega)

theorem sound_init (hc : c.Sound) : (machine c).init.Sound where
  cache := hc
  calls _ _ hp := by cases hp
  free := ⟨0, fun _ _ => rfl⟩

theorem Sound.step (hs : s.Sound) (h : s.step l = some t) : t.Sound := by
  rcases step_cases h with ⟨k, call, -, rfl⟩ | ⟨key, rfl⟩ | ⟨k, r, p, p', hp, hmove, hcalls⟩
  · refine ⟨hs.cache, fun j p hj => ?_, free_update hs.free k _⟩
    rcases calls_update hj with ⟨-, rfl⟩ | ⟨-, hj⟩
    · exact reached_start _ call
    · exact hs.calls j p hj
  · exact ⟨hs.cache.expire key, fun j p hj => ⟨(hs.calls j p hj).pending, (hs.calls j p hj).key⟩, hs.free⟩
  · obtain ⟨hcache, hreached, hle⟩ := hs.cache.move (hs.calls k p hp) (Cache.move_spec hmove)
    refine ⟨hcache, fun j q hj => ?_, hcalls ▸ free_update hs.free k _⟩
    rw [hcalls] at hj
    rcases calls_update hj with ⟨-, rfl⟩ | ⟨-, hj⟩
    · exact hreached
    · exact (hs.calls j q hj).mono hle

/-- The pod after call `i` has raised the counter of `c₀`: no call holds a version under which there
were entries, and the copy has none either as soon as the call has stored its own. -/
structure After (c₀ : Cache D) (i : Nat) (s : Pod D) : Prop where
  later : c₀.Later s.cache
  pending : ∀ k p v, s.calls k = some p → p.pending = some v → c₀.Empty v
  copy : (∃ v, s.calls i = some (.adopt v)) ∨ c₀.Empty s.cache.patternVersion

theorem After.step (hc₀ : c₀.Sound) (hs : s.After c₀ i) (h : s.step l = some t) : t.After c₀ i := by
  rcases step_cases h with ⟨k, call, hk, rfl⟩ | ⟨key, rfl⟩ | ⟨k, r, p, p', hp, hmove, hcalls⟩
  · refine ⟨hs.later, fun j p v hj hv => ?_, ?_⟩
    · rcases calls_update hj with ⟨-, rfl⟩ | ⟨-, hj⟩
      · cases call <;> cases hv
      · exact hs.pending j p v hj hv
    · refine hs.copy.imp_left ?_
      rintro ⟨v, hv⟩
      have hne : i ≠ k := by
        rintro rfl
        rw [hk] at hv
        cases hv
      exact ⟨v, (update_of_ne hne ..).trans hv⟩
  · exact ⟨hs.later.expire key, hs.pending, hs.copy⟩
  · obtain ⟨hlater, hpending, hcopy⟩ :=
      hs.later.move hc₀ (fun v hv => hs.pending k p v hp hv) (Cache.move_spec hmove)
    refine ⟨hlater, fun j q v hj hv => ?_, ?_⟩
    · rw [hcalls] at hj
      rcases calls_update hj with ⟨-, rfl⟩ | ⟨-, hj⟩
      · exact hpending v hv
      · exact hs.pending j q v hj hv
    · rcases hcopy with ⟨hnone, hsame⟩ | hempty
      · rcases hs.copy with ⟨v, hv⟩ | hempty
        · -- it is not call `i` that has moved
          have hne : i ≠ k := by
            rintro rfl
            cases hp.symm.trans hv
            cases hnone
          exact .inl ⟨v, hcalls ▸ (update_of_ne hne ..).trans hv⟩
        · exact .inr (hsame ▸ hempty)
      · exact .inr hempty

structure Since (c₀ : Cache D) (i j : Nat) (s : Pod D) : Prop where
  after : s.After c₀ i
  copy : c₀.Empty s.cache.patternVersion
  call : ∀ p, s.calls j = some p → c₀.NoneOld p

theorem Since.step (hc₀ : c₀.Sound) (hs : s.Since c₀ i j) (h : s.step l = some t) :
    t.Since c₀ i j := by
  have hafter := hs.after.step hc₀ h
  rcases step_cases h with ⟨k, call, hk, rfl⟩ | ⟨key, rfl⟩ | ⟨k, r, p, p', hp, hmove, hcalls⟩
  · refine ⟨hafter, hs.copy, fun p hj => ?_⟩
    rcases calls_update hj with ⟨-, rfl⟩ | ⟨-, hj⟩
    · cases call <;> exact ⟨nofun, nofun⟩
    · exact hs.call p hj
  · exact ⟨hafter, hs.copy, hs.call⟩
  · have hmove := Cache.move_spec hmove
    have hcopy := (hs.after.later.move hc₀ (fun v hv => hs.after.pending k p v hp hv) hmove).2.2
    refine ⟨hafter, ?_, fun q hj => ?_⟩
    · rcases hcopy with ⟨-, hsame⟩ | hempty
      · exact hsame ▸ hs.copy
      · exact hempty
    · rw [hcalls] at hj
      rcases calls_update hj with ⟨rfl, rfl⟩ | ⟨-, hj⟩
      · exact (hs.call p hp).move hs.after.later hs.copy hmove
      · exact hs.call q hj

theorem step_move (hp : s.calls i = some p) (h : s.cache.move r p = some (c', p')) :
    s.step (.move i r) = some ⟨c', update s.calls i (some p')⟩ := by
  simp only [step, hp, bind_some, h, map_some]

theorem reach_step (h : s.step l = some t) : (machine c).Reach anyStep s t :=
  .tail (l := l) .refl trivial h

theorem invalidation_returns (hi : s.calls i = some (.adopt v)) :
    (machine c).Reach anyStep s ⟨{ s.cache with patternVersion := v },
      update s.calls i (some (.returned (.invalidated true)))⟩ := by
  have hadopt := step_move (r := .ok) hi rfl
  have hpublish : Pod.step ⟨{ s.cache with patternVersion := v }, update s.calls i (some .publish)⟩
      (.move i .ok) = some ⟨_, _⟩ := step_move (update_self ..) rfl
  rw [update_idem] at hpublish
  exact (reach_step hadopt).trans (reach_step hpublish)

theorem version_stored (hk : s.calls k = some p) (hv : p.pending = some v) :
    ∃ p', s.step (.move k .ok) =
      some ⟨{ s.cache with patternVersion := v }, update s.calls k (some p')⟩ := by
  cases p <;> cases hv <;> exact ⟨_, step_move hk rfl⟩

theorem entry_read (hj : s.calls j = none)
    (he : s.cache.entries (s.cache.patternVersion, apkHash) = some e) :
    ∃ t, (machine c).Reach anyStep s t ∧ t.calls j = some (.returned (.hit e)) := by
  have hbegin : s.step (.begin j (.getMetadataFromCache apkHash)) =
      some ⟨s.cache, update s.calls j (some (.read apkHash))⟩ := by
    simp only [step, hj]
    rfl
  have hkey : Pod.step ⟨s.cache, update s.calls j (some (.read apkHash))⟩ (.move j .ok) =
      some ⟨s.cache, _⟩ := step_move (update_self ..) rfl
  rw [update_idem] at hkey
  have hget : s.cache.move .ok (.get (s.cache.patternVersion, apkHash)) =
      some (s.cache, .returned (.hit e)) := by
    simp only [Cache.move, he]
  have hhit : Pod.step ⟨s.cache, update s.calls j (some (.get (s.cache.patternVersion, apkHash)))⟩
      (.move j .ok) = some ⟨s.cache, _⟩ := step_move (update_self ..) hget
  exact ⟨_, (reach_step hbegin).trans ((reach_step hkey).trans (reach_step hhit)), update_self ..⟩

/-- A call stores a version from before the invalidation after that has returned, and a call that
begins then finds the entries of that version. -/
theorem stale_version_read (hs : s.Sound) (hi : s.calls i = some .bump)
    (ht : s.step (.move i .ok) = some t) (hk : s.calls k = some p) (hv : p.pending = some v)
    (he : s.cache.entries (v, apkHash) = some e) :
    ∃ u u' j, (machine c).Reach anyStep t u ∧
      u.calls i = some (.returned (.invalidated true)) ∧ u.calls j = none ∧
      (machine c).Reach anyStep u u' ∧ u'.calls j = some (.returned (.hit e)) := by
  obtain rfl : ⟨s.cache.incr, update s.calls i (some (.adopt (s.cache.version + 1)))⟩ = t :=
    some.inj ((step_move hi rfl).symm.trans ht)
  have hki : k ≠ i := by
    rintro rfl
    cases hk.symm.trans hi
    cases hv
  obtain ⟨n, hn⟩ := hs.free
  obtain ⟨j, hj, hji, hjk⟩ : ∃ j, s.calls j = none ∧ j ≠ i ∧ j ≠ k :=
    ⟨max n (max (i + 1) (k + 1)), hn _ (by omega), by omega, by omega⟩
  have hreturns := invalidation_returns (c := c)
    (s := ⟨s.cache.incr, update s.calls i (some (.adopt (s.cache.version + 1)))⟩)
    (update_self ..)
  rw [update_idem] at hreturns
  obtain ⟨p', hstored⟩ := version_stored
    (s := ⟨{ s.cache.incr with patternVersion := s.cache.version + 1 },
      update s.calls i (some (.returned (.invalidated true)))⟩)
    ((update_of_ne hki ..).trans hk) hv
  have hfree : update s.calls i (some (.returned (.invalidated true))) j = none :=
    (update_of_ne hji ..).trans hj
  obtain ⟨u', hread, hhit⟩ := entry_read (c := c) (e := e)
    (s := ⟨{ s.cache.incr with patternVersion := v },
      update (update s.calls i (some (.returned (.invalidated true)))) k (some p')⟩)
    ((update_of_ne hjk ..).trans hfree) he
  exact ⟨_, u', j, hreturns, update_self .., hfree, (reach_step hstored).trans hread, hhit⟩

/-- No call that begins after an invalidation has returned gets an entry from before it, exactly if no
other call holds, when the counter is raised, a version that it has yet to store and under which there
are entries. -/
theorem invalidation_kept_iff (hc : c.Sound)
    (hs : (machine c).Reach anyStep (machine c).init s) (hi : s.calls i = some .bump)
    (ht : s.step (.move i .ok) = some t) :
    (∀ u u' j e, (machine c).Reach anyStep t u →
        u.calls i = some (.returned (.invalidated true)) → u.calls j = none →
        (machine c).Reach anyStep u u' → u'.calls j = some (.returned (.hit e)) →
        s.cache.clock ≤ e.storedAt) ↔
      ∀ k p v, s.calls k = some p → p.pending = some v → s.cache.Empty v := by
  have hsound : s.Sound :=
    hs.invariant (sound_init hc) fun _ _ _ hs _ hstep => hs.step hstep
  constructor
  · intro hkept k p v hk hv apkHash
    cases he : s.cache.entries (v, apkHash) with
    | none => rfl
    | some e =>
      obtain ⟨u, u', j, hu, hui, huj, hu', hj⟩ := stale_version_read (c := c) hsound hi ht hk hv he
      exact absurd (hkept u u' j e hu hui huj hu' hj) (Nat.not_le.mpr (hsound.cache.storedAt_lt _ e he))
  · intro hnone u u' j e hu hui huj hu' hj
    have ht : t = ⟨s.cache.incr, update s.calls i (some (.adopt (s.cache.version + 1)))⟩ :=
      some.inj (ht.symm.trans (step_move hi rfl))
    have hafter : t.After s.cache i := by
      subst ht
      refine ⟨⟨Nat.lt_succ_self _, Nat.le_refl _, fun _ _ he _ => he⟩, fun k p v hk hv => ?_,
        .inl ⟨_, update_self ..⟩⟩
      rcases calls_update hk with ⟨-, rfl⟩ | ⟨-, hk⟩
      · exact some.inj hv ▸ hsound.cache.empty_of_lt (Nat.lt_succ_self _)
      · exact hnone k p v hk hv
    have hreturned : u.After s.cache i :=
      hu.invariant hafter fun _ _ _ hs _ hstep => hs.step hsound.cache hstep
    have hcopy : s.cache.Empty u.cache.patternVersion := by
      refine hreturned.copy.resolve_left ?_
      rintro ⟨v, hv⟩
      cases hui.symm.trans hv
    have hsince : u.Since s.cache i j :=
      ⟨hreturned, hcopy, fun p hp => absurd (huj.symm.trans hp) nofun⟩
    have hlast : u'.Since s.cache i j :=
      hu'.invariant hsince fun _ _ _ hs _ hstep => hs.step hsound.cache hstep
    exact (hlast.call _ hj).found e rfl

def storedRun : List (PodLabel Nat) :=
  [.begin 0 (.setMetadataInCache "a1".toList 7), .move 0 .ok, .move 0 .ok,
    .begin 1 .invalidateAllMetadataCache]

theorem sound_empty : (({} : Cache Nat)).Sound := ⟨Nat.le_refl 0, nofun, nofun⟩

theorem quiet_invalidation_kept :
    ∃ s t, (machine ({} : Cache Nat)).exec (machine {}).init storedRun = some s ∧
      s.step (.move 1 .ok) = some t ∧
      ∀ u u' j e, (machine ({} : Cache Nat)).Reach anyStep t u →
        u.calls 1 = some (.returned (.invalidated true)) → u.calls j = none →
        (machine ({} : Cache Nat)).Reach anyStep u u' →
        u'.calls j = some (.returned (.hit e)) → 1 ≤ e.storedAt := by
  refine ⟨_, _, rfl, rfl, (invalidation_kept_iff sound_empty
    (reach_of_exec storedRun rfl) rfl rfl).mpr fun k p v hk hv => ?_⟩
  match k with
  | 0 | 1 =>
    cases hk
    cases hv
  | _ + 2 => cases hk

def racingRun : List (PodLabel Nat) :=
  [.begin 0 (.setMetadataInCache "a1".toList 7), .move 0 .ok, .move 0 .ok,
    .begin 2 .refreshPatternVersion, .move 2 .ok,
    .begin 1 .invalidateAllMetadataCache, .move 1 .ok, .move 1 .ok, .move 1 .ok]

/-- Then it stores the old version, and a call that begins after that gets what was stored before the
invalidation. -/
theorem stale_refresh_undoes_invalidation :
    ∃ s u, (machine ({} : Cache Nat)).exec (machine {}).init racingRun = some s ∧
      s.calls 1 = some (.returned (.invalidated true)) ∧ s.calls 3 = none ∧
      s.cache.entries (0, "a1".toList) = some ⟨7, 0⟩ ∧
      (machine {}).exec s [.move 2 .ok, .begin 3 (.getMetadataFromCache "a1".toList), .move 3 .ok,
        .move 3 .ok] = some u ∧
      u.calls 3 = some (.returned (.hit ⟨7, 0⟩)) :=
  ⟨_, _, rfl, rfl, rfl, rfl, rfl, rfl⟩

end Pod

end Morf.Utils
