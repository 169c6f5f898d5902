import Mathlib.Algebra.Group.Nat.Defs
import Morf.Lib.Deferred
import Morf.Queue.Job
import Morf.Storage.Backend
import Mathlib.Logic.Function.Basic

/-! `resolveAPKPath` of `worker/worker.go`: from a job's storage key to a path that the
external tools can read. -/

namespace Morf.Scan

open Morf.Lib Morf.Queue Morf.Storage Body

/-- What the operating system answers during one call. The free space is measured twice;
`removes` says whether `os.Remove` of the temporary file succeeds, whose error is dropped. -/
structure Host where
  createTemp : Except String Path := .error ""
  close : Option String := none
  stat : Option String := none
  freeBefore : Option Nat := none
  freeAfter : Option Nat := none
  removes : Bool := true
  factor : Nat := 20

inductive ResolveError
  | noBackend (key : Key)
  | disk (required : Nat) (size : Int) (factor free : Nat)
  | openObject (key : Key) (e : Storage.Error)
  | createTemp (e : String)
  | copy (key : Key) (e : String)
  | finalize (e : String)
  | unavailable (key : Key) (path : Path) (e : Option String)
  deriving DecidableEq

/-- The product is one of machine words. -/
def checkDiskAdmission (factor : Nat) (free : Option Nat) (objSize : Int) :
    Except ResolveError Unit :=
  if objSize ≤ 0 then .ok ()
  else
    let required := objSize.toNat * factor % 2 ^ 64
    match free with
    | none => .ok ()
    | some n => if n < required then .error (.disk required objSize factor n) else .ok ()

/-- A job is refused for its exact need of space exactly if the product is one of machine words, or
what is left of it modulo their range is too much already. -/
theorem disk_admission_exact_iff (size factor free : Nat) (hsize : 0 < size)
    (hfree : free < 2 ^ 64) :
    ((∃ e, checkDiskAdmission factor (some free) size = .error e) ↔ free < size * factor) ↔
      size * factor < 2 ^ 64 ∨ free < size * factor % 2 ^ 64 := by
  have hrefused : (∃ e, checkDiskAdmission factor (some free) size = .error e) ↔
      free < size * factor % 2 ^ 64 := by
    rw [checkDiskAdmission, if_neg (by omega)]
    dsimp only [Int.toNat_natCast]
    split <;> simp_all
  rw [hrefused]
  generalize size * factor = need
  omega

theorem ten_free_bytes_refused : (1 * 20 < 2 ^ 64 ∨ 10 < 1 * 20 % 2 ^ 64) ∧
    ((∃ e, checkDiskAdmission 20 (some 10) 1 = .error e) ↔ 10 < 1 * 20) :=
  ⟨by decide, (disk_admission_exact_iff 1 20 10 (by decide) (by decide)).mpr (by decide)⟩

theorem full_disk_admitted : checkDiskAdmission (2 ^ 60) (some 0) 16 = .ok () ∧ 0 < 16 * 2 ^ 60 := by
  decide

def create (p : Path) (fs : Files) : Files := Function.update fs p (some (.file []))

def remove (p : Path) (fs : Files) : Files := Function.update fs p none

def cleanUp (h : Host) (tmp : Path) (fs : Files) : Files :=
  if h.removes then remove tmp fs else fs

def append (p : Path) (fs : Files) (bytes : Bytes) : Files :=
  match fs p with
  | some (.file old) => Function.update fs p (some (.file (old ++ bytes)))
  | _ => fs

def copy (p : Path) (chunks : List Bytes) (fs : Files) : Files := chunks.foldl (append p) fs

def preflight (h : Host) : Except Storage.Error Int → Except ResolveError Unit
  | .ok size => checkDiskAdmission h.factor h.freeBefore size
  | .error _ => .ok ()

def fetch (b : Backend) (h : Host) (key : Key) : Body Files ResolveError Path := do
  let fs ← Body.get
  Body.lift (preflight h (b.stat fs key))
  let s ← Body.lift ((b.openObject fs key).mapError (.openObject key))
  let tmp ← Body.lift (h.createTemp.mapError .createTemp)
  Body.modify (create tmp)
  Body.defer (cleanUp h tmp)
  modify (copy tmp s.chunks)
  raise (s.fault.map (.copy key))
  raise (h.close.map .finalize)
  return tmp

def locate (store : Option Backend) (h : Host) (job : ScanJob) : Body Files ResolveError Path :=
  if job.storageKey = "" then return job.apkPath
  else match store with
    | none => throw (.noBackend job.storageKey)
    | some b => match b.localPath job.storageKey with
      | some p => return p
      | none => fetch b h job.storageKey

def verify (h : Host) (key : Key) (path : Path) (fs : Files) : Except ResolveError Path :=
  match h.stat, fs path with
  | none, some (.file bytes) =>
    (checkDiskAdmission h.factor h.freeAfter bytes.length).map fun _ => path
  | e, _ => .error (.unavailable key path e)

def resolveAPKPath (store : Option Backend) (h : Host) (job : ScanJob) :
    Body Files ResolveError Path := do
  let path ← locate store h job
  let fs ← Body.get
  Body.lift (verify h job.storageKey path fs)

section Copy

variable {p : Path} {fs : Files}

theorem copy_file (chunks : List Bytes) (h : fs p = some (.file old)) :
    copy p chunks fs p = some (.file (old ++ chunks.flatten)) := by
  induction chunks generalizing fs old with
  | nil => simpa [copy] using h
  | cons c cs ih =>
    have := ih (show append p fs c p = some (.file (old ++ c)) by simp [append, h])
    simpa [copy, List.append_assoc] using this

theorem copy_create (chunks : List Bytes) (fs : Files) :
    copy p chunks (create p fs) p = some (.file chunks.flatten) := by
  have h : create p fs p = some (.file []) := by simp [create]
  simpa using copy_file chunks h

end Copy

variable {store : Option Backend} {b : Backend} {h : Host} {job : ScanJob} {fs : Files}
  {bytes : Bytes}

def Stored (store : Option Backend) (fs : Files) (job : ScanJob) (bytes : Bytes) : Prop :=
  if job.storageKey = "" then fs job.apkPath = some (.file bytes)
  else ∃ b, store = some b ∧ b.Stores fs job.storageKey bytes

def Direct (store : Option Backend) (job : ScanJob) : Prop :=
  job.storageKey = "" ∨ ∃ b, store = some b ∧ (b.localPath job.storageKey).isSome

structure Host.Fetches (h : Host) (store : Option Backend) (fs : Files) (key : Key)
    (bytes : Bytes) : Prop where
  before : ∀ b, store = some b → preflight h (b.stat fs key) = .ok ()
  temp : ∃ tmp, h.createTemp = .ok tmp
  close : h.close = none
  stat : h.stat = none
  after : checkDiskAdmission h.factor h.freeAfter bytes.length = .ok ()

theorem verify_ok (hp : verify h key path fs = .ok p) :
    p = path ∧ h.stat = none ∧ ∃ bs, fs path = some (.file bs) ∧
      checkDiskAdmission h.factor h.freeAfter bs.length = .ok () := by
  unfold verify at hp
  split at hp
  · rename_i bs hs hf
    cases hc : checkDiskAdmission h.factor h.freeAfter bs.length with
    | error e => simp [hc, Except.map] at hp
    | ok u =>
      simp only [hc, Except.map, Except.ok.injEq] at hp
      exact ⟨hp.symm, hs, bs, hf, hc⟩
  · cases hp

theorem locate_direct (hd : Direct store job) (hs : Stored store fs job bytes) :
    ∃ p, locate store h job (fs, []) = (.ok p, fs, []) ∧ fs p = some (.file bytes) := by
  by_cases hk : job.storageKey = ""
  · exact ⟨job.apkPath, by simp [locate, hk], by simpa [Stored, hk] using hs⟩
  · simp only [Stored, hk, if_false] at hs
    obtain ⟨b, rfl, s, ho, hf, rfl⟩ := hs
    obtain ⟨b', hb, hl⟩ := hd.resolve_left hk
    cases hb
    obtain ⟨p, hp⟩ := Option.isSome_iff_exists.mp hl
    exact ⟨p, by simp [locate, hk, hp], b.localPath_reads hp ho hf⟩

theorem locate_fetch (hd : ¬ Direct (some b) job) : locate (some b) h job = fetch b h job.storageKey := by
  simp only [Direct, Option.some.injEq, exists_eq_left', not_or, Option.not_isSome_iff_eq_none] at hd
  simp [locate, hd.1, hd.2]

theorem fetch_ok :
    fetch b h key (fs, []) = (.ok p, s') ↔
      preflight h (b.stat fs key) = .ok () ∧ h.createTemp = .ok p ∧ h.close = none ∧
      ∃ s, b.openObject fs key = .ok s ∧ s.fault = none ∧
        s' = (copy p s.chunks (create p fs), [cleanUp h p]) := by
  simp only [fetch, bind_ok, get_ok, lift_ok, modify_ok, defer_ok,
    raise_ok, pure_ok, mapError_ok, Option.map_eq_none_iff]
  constructor
  · rintro ⟨_, _, ⟨rfl, rfl⟩, _, _, ⟨hb, rfl⟩, s, _, ⟨ho, rfl⟩, tmp, _, ⟨ht, rfl⟩, _, _, rfl,
      _, _, rfl, _, _, rfl, _, _, ⟨hf, rfl⟩, _, _, ⟨hc, rfl⟩, rfl, rfl⟩
    exact ⟨hb, ht, hc, s, ho, hf, rfl⟩
  · rintro ⟨hb, ht, hc, s, ho, hf, rfl⟩
    exact ⟨_, _, ⟨rfl, rfl⟩, _, _, ⟨hb, rfl⟩, s, _, ⟨ho, rfl⟩, p, _, ⟨ht, rfl⟩, (), _, rfl,
      (), _, rfl, (), _, rfl, (), _, ⟨hf, rfl⟩, (), _, ⟨hc, rfl⟩, rfl, rfl⟩

theorem resolve_ok :
    resolveAPKPath store h job (fs, []) = (.ok p, s') ↔
      locate store h job (fs, []) = (.ok p, s') ∧ verify h job.storageKey p s'.1 = .ok p := by
  simp only [resolveAPKPath, bind_ok, get_ok, lift_ok]
  constructor
  · rintro ⟨q, _, hl, _, _, ⟨rfl, rfl⟩, hv, rfl⟩
    obtain ⟨rfl, -⟩ := verify_ok hv
    exact ⟨hl, hv⟩
  · rintro ⟨hl, hv⟩
    exact ⟨p, s', hl, _, _, ⟨rfl, rfl⟩, hv, rfl⟩

theorem direct_call (hd : Direct store job) (hs : Stored store fs job bytes)
    (hr : ((resolveAPKPath store h job).call fs).1 = .ok p) :
    ((resolveAPKPath store h job).call fs).2 p = some (.file bytes) := by
  obtain ⟨s', hr, hc⟩ := call_ok.mp (Prod.ext hr rfl)
  obtain ⟨q, hq, hf⟩ := locate_direct (h := h) hd hs
  obtain ⟨hl, -⟩ := resolve_ok.mp hr
  cases hq.symm.trans hl
  exact (congrFun hc p).symm.trans hf

theorem fetched_call (hd : ¬ Direct (some b) job) (hs : b.Stores fs job.storageKey bytes)
    (hr : ((resolveAPKPath (some b) h job).call fs).1 = .ok p) :
    h.Fetches (some b) fs job.storageKey bytes ∧
      ((resolveAPKPath (some b) h job).call fs).2 p =
        if h.removes then none else some (.file bytes) := by
  obtain ⟨s', hr, hc⟩ := call_ok.mp (Prod.ext hr rfl)
  obtain ⟨hl, hv⟩ := resolve_ok.mp hr
  rw [locate_fetch hd] at hl
  obtain ⟨hb, ht, hcl, s, ho, hf, rfl⟩ := fetch_ok.mp hl
  obtain ⟨s₀, ho', -, rfl⟩ := hs
  cases ho.symm.trans ho'
  obtain ⟨-, hst, bs, hbs, ha⟩ := verify_ok hv
  have hcopy := copy_create (p := p) s.chunks fs
  cases hbs.symm.trans hcopy
  refine ⟨⟨fun b' e => by cases e; exact hb, ⟨p, ht⟩, hcl, hst, ha⟩, ?_⟩
  refine (congrFun hc p).symm.trans ?_
  cases hrm : h.removes <;> simp [cleanUp, remove, hrm, hcopy]

theorem fetches_call (hd : ¬ Direct (some b) job) (hs : b.Stores fs job.storageKey bytes)
    (hfe : h.Fetches (some b) fs job.storageKey bytes) :
    ∃ p, ((resolveAPKPath (some b) h job).call fs).1 = .ok p := by
  obtain ⟨s, ho, hf, rfl⟩ := hs
  obtain ⟨p, ht⟩ := hfe.temp
  have hl : locate (some b) h job (fs, []) =
      (.ok p, copy p s.chunks (create p fs), [cleanUp h p]) := by
    rw [locate_fetch hd]
    exact fetch_ok.mpr ⟨hfe.before b rfl, ht, hfe.close, s, ho, hf, rfl⟩
  have hv : verify h job.storageKey p (copy p s.chunks (create p fs)) = .ok p := by
    simp only [verify, hfe.stat, copy_create, hfe.after, Except.map]
  exact ⟨p, congrArg Prod.fst (call_ok.mpr ⟨_, resolve_ok.mpr ⟨hl, hv⟩, rfl⟩)⟩

theorem resolved_path_names_object_iff (hs : Stored store fs job bytes) :
    (∀ p, ((resolveAPKPath store h job).call fs).1 = .ok p →
      ((resolveAPKPath store h job).call fs).2 p = some (.file bytes)) ↔
    Direct store job ∨ h.removes = false ∨ ¬ h.Fetches store fs job.storageKey bytes := by
  by_cases hd : Direct store job
  · simp only [hd, true_or, iff_true]
    exact fun p hr => direct_call hd hs hr
  · have hk : job.storageKey ≠ "" := fun hk => hd (.inl hk)
    simp only [Stored, hk, if_false] at hs
    obtain ⟨b, rfl, hs⟩ := hs
    simp only [hd, false_or]
    constructor
    · intro hall
      by_contra hn
      simp only [not_or, Bool.not_eq_false, not_not] at hn
      obtain ⟨p, hr⟩ := fetches_call hd hs hn.2
      have hp := hall p hr
      simp [(fetched_call hd hs hr).2, hn.1] at hp
    · rintro hor p hr
      obtain ⟨hfe, hp⟩ := fetched_call hd hs hr
      have hrm : h.removes = false := hor.resolve_right (not_not_intro hfe)
      simpa [hrm] using hp

/-- A job on a local backend: the path is that of the stored object. -/
theorem local_job_path_names_object :
    let store := some (localStorage "/up" none)
    let job : ScanJob := { id := "j", status := .queued, storageKey := "a.apk" }
    let fs : Files := Function.update (fun _ => none) "/up/a.apk" (some (.file [1, 2]))
    ((resolveAPKPath store {} job).call fs).1 = .ok "/up/a.apk" ∧
      ((resolveAPKPath store {} job).call fs).2 "/up/a.apk" = some (.file [1, 2]) := by
  have hs : Stored (some (localStorage "/up" none))
      (Function.update (fun _ => none) "/up/a.apk" (some (.file [1, 2])))
      { id := "j", status := .queued, storageKey := "a.apk" } [1, 2] :=
    ⟨_, rfl, ⟨[[1, 2]], none⟩, by rfl, rfl, rfl⟩
  have hr : ((resolveAPKPath (some (localStorage "/up" none)) {}
      { id := "j", status := .queued, storageKey := "a.apk" }).call
        (Function.update (fun _ => none) "/up/a.apk" (some (.file [1, 2])))).1 =
      .ok "/up/a.apk" := by rfl
  exact ⟨hr, (resolved_path_names_object_iff hs).mpr (.inl (.inr ⟨_, rfl, by decide⟩)) _ hr⟩

/-- An object of two pieces on a remote backend: the call succeeds, and the path it has
returned names no file. -/
theorem remote_job_path_removed :
    let store := some (s3Storage (fun _ => .ok 3) fun _ => .ok { chunks := [[1, 2], [3]] })
    let job : ScanJob := { id := "j", status := .queued, storageKey := "a.apk" }
    let h : Host :=
      { createTemp := .ok "/tmp/morf/jobs/j/apk-1.apk"
        freeBefore := some 60
        freeAfter := some 60 }
    Stored store (fun _ => none) job [1, 2, 3] ∧
      ((resolveAPKPath store h job).call fun _ => none).1 =
        .ok "/tmp/morf/jobs/j/apk-1.apk" ∧
      ((resolveAPKPath store h job).call fun _ => none).2 "/tmp/morf/jobs/j/apk-1.apk" =
        none :=
  ⟨⟨_, rfl, ⟨[[1, 2], [3]], none⟩, rfl, rfl, rfl⟩, by rfl, by rfl⟩

end Morf.Scan
