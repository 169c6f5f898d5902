import Morf.Queue.Finality
import Morf.Scan.Workspace

/-! Scans of several workers on one host.  A scan works in the directory of its job, from
`CreateWorkspace` to the deferred `CleanupWorkspace` (`utils/jobcontext.go`, `scanAPK`),
while the queue goes on delivering jobs. -/

namespace Morf.Scan

open Morf.Lib Morf.Lib.Path Morf.Queue
open List Option

/-- A single effect of a scan, or of a tool that it runs, on the file system. -/
inductive FileOp
  | mkdirAll (p : List Char)
  | write (p : List Char)
  | read (p : List Char)
  | remove (p : List Char)
  | removeAll (p : List Char)
  deriving DecidableEq

/-- The files and directories that exist, each with the worker whose present scan has made
it, if one has. -/
def Tree := List Char → Option (Option WorkerId)

namespace Tree

def add (t : Tree) (w : WorkerId) (q : List Char → Bool) : Tree := fun p =>
  if q p && (t p).isNone then some (some w) else t p

def drop (t : Tree) (q : List Char → Bool) : Tree := fun p => if q p then none else t p

def disown (t : Tree) (w : WorkerId) : Tree := fun p =>
  if t p = some (some w) then some none else t p

def exec (t : Tree) (w : WorkerId) : FileOp → Tree
  | .mkdirAll p => t.add w (under · p)
  | .write p => t.add w (· == p)
  | .read _ => t
  | .remove p => t.drop (· == p)
  | .removeAll p => t.drop (under p)

end Tree

def createWorkspace (u : Uuid) : List FileOp :=
  [jobRoot u, getInputDir u, getOutputDir u, getSourceDir u, getResDir u, getFilesDir u,
    getIOSDir u, getIOSBinDir u].map .mkdirAll

def cleanupWorkspace (u : Uuid) : FileOp := .removeAll (jobRoot u)

/-- The scan and its tools change only what lies in the directory of the job; they read
anything. -/
def FileOp.inside (u : Uuid) : FileOp → Bool
  | .mkdirAll p | .write p | .remove p | .removeAll p => under (jobRoot u) p
  | .read _ => true

/-- How a scan goes: what it does between `CreateWorkspace` and `CleanupWorkspace`, which
every return and every panic reaches, or the number of directories made before
`CreateWorkspace` fails. -/
inductive Course
  | scan (body : List FileOp)
  | noWorkspace (n : Nat)

def Course.ops (u : Uuid) : Course → List FileOp
  | .scan body => createWorkspace u ++ body ++ [cleanupWorkspace u]
  | .noWorkspace n => (createWorkspace u).take n

def Course.inside (u : Uuid) : Course → Bool
  | .scan body => body.all (·.inside u)
  | .noWorkspace _ => true

structure Scanning where
  job : Uuid
  todo : List FileOp
  deriving DecidableEq

structure Site where
  fleet : Fleet := {}
  files : Tree
  scans : List (WorkerId × Scanning) := []

inductive SiteLabel
  | queue (l : Label)
  | begin (w : WorkerId) (u : Uuid) (c : Course)
  | file (w : WorkerId)

def inScan (u : Uuid) : Delivery → Bool
  | .scanning _ job => job.id.toList == u.text
  | _ => false

namespace Site

def put (w : WorkerId) (s : Scanning) (scans : List (WorkerId × Scanning)) :
    List (WorkerId × Scanning) := (w, s) :: scans.filter (·.1 ≠ w)

def close (scans : List (WorkerId × Scanning)) (fleet : Fleet) :
    Label → Option (List (WorkerId × Scanning))
  | .crash w => some (scans.filter (·.1 ≠ w))
  | .work w _ =>
    match scans.lookup w with
    | none => some scans
    | some s =>
      if inScan s.job (fleet.pool.worker w) then some scans
      else if s.todo = [] then some (scans.filter (·.1 ≠ w))
      else none
  | _ => some scans

def step (cfg : Config) (h : Site) : SiteLabel → Option Site
  | .queue l =>
    (h.fleet.next cfg l).bind fun (_, fleet) =>
      (close h.scans fleet l).map fun scans => { h with fleet, scans }
  | .begin w u c =>
    if inScan u (h.fleet.pool.worker w) && (h.scans.lookup w).isNone && c.inside u then
      some { h with files := h.files.disown w, scans := put w ⟨u, c.ops u⟩ h.scans }
    else none
  | .file w =>
    match h.scans.lookup w with
    | some ⟨u, op :: todo⟩ =>
      some { h with files := h.files.exec w op, scans := put w ⟨u, todo⟩ h.scans }
    | _ => none

def machine (cfg : Config) (files : Tree) : Machine Site SiteLabel where
  init := { files }
  step := step cfg

/-- `w` is about to clean up, and will remove `p`, which the scan of `w'` has made and
still reads. -/
def Destroys (h : Site) (w w' : WorkerId) (p : List Char) : Prop :=
  w ≠ w' ∧ ∃ s s', h.scans.lookup w = some s ∧ h.scans.lookup w' = some s' ∧
    s.todo = [cleanupWorkspace s.job] ∧ h.files p = some (some w') ∧
    under (jobRoot s.job) p = true ∧ .read p ∈ s'.todo

def alone (h : Site) : SiteLabel → Bool
  | .begin w u _ => h.scans.all fun (w', s) => w' = w || s.todo.isEmpty || s.job ≠ u
  | _ => true

end Site

theorem createWorkspace_inside (u : Uuid) : ∀ op ∈ createWorkspace u, op.inside u = true := by
  have hios : getIOSBinDir u =
      rooted (jobSegments u ++ (["output".toList, "ipa".toList] ++ ["bin".toList])) := by
    rw [getIOSBinDir, getIOSDir, dir_rooted u (by decide), join_dirNames u (by decide) (by decide)]
  simp only [createWorkspace, map_cons, map_nil, forall_mem_cons, FileOp.inside,
    under_refl, getInputDir, getOutputDir, getSourceDir, getResDir, getFilesDir, getIOSDir,
    hios]
  rw [dir_rooted u (by decide), dir_rooted u (by decide), dir_rooted u (by decide),
    dir_rooted u (by decide), dir_rooted u (by decide)]
  simp only [under_dir, not_mem_nil, false_implies, implies_true, and_self]

theorem Course.ops_inside {c : Course} (h : c.inside u = true) :
    ∀ op ∈ c.ops u, op.inside u = true := by
  intro op hop
  cases c with
  | scan body =>
    simp only [Course.ops, mem_append, mem_singleton] at hop
    rcases hop with (hop | hop) | rfl
    · exact createWorkspace_inside u op hop
    · exact List.all_eq_true.mp h op hop
    · exact under_refl _
  | noWorkspace n => exact createWorkspace_inside u op (mem_of_mem_take hop)

namespace Tree

variable {t : Tree}

theorem add_owner (h : t.add w q p = some (some v)) : t p = some (some v) ∨ v = w ∧ q p = true := by
  simp only [add, Bool.and_eq_true] at h
  split at h
  case isTrue hq => exact .inr ⟨by simpa using h.symm, hq.1⟩
  case isFalse => exact .inl h

theorem drop_owner (h : t.drop q p = some (some v)) : t p = some (some v) := by
  simp only [drop] at h
  split at h
  case isTrue => cases h
  case isFalse => exact h

theorem disown_owner (h : t.disown w p = some (some v)) : t p = some (some v) ∧ v ≠ w := by
  simp only [disown] at h
  split at h
  case isTrue => cases h
  case isFalse hn => exact ⟨h, fun hv => hn (hv ▸ h)⟩

theorem exec_owner (hop : op.inside u = true) (h : t.exec w op p = some (some v)) :
    t p = some (some v) ∨
      v = w ∧ (under (jobRoot u) p = true ∨ under p (jobRoot u) = true) := by
  cases op with
  | mkdirAll q =>
    rw [exec] at h
    exact (add_owner h).imp_right fun h => ⟨h.1, under_or_under hop h.2⟩
  | write q =>
    rw [exec] at h
    refine (add_owner h).imp_right fun h => ⟨h.1, .inl ?_⟩
    rw [beq_iff_eq.mp h.2]
    exact hop
  | read q => exact .inl h
  | remove q | removeAll q =>
    rw [exec] at h
    exact .inl (drop_owner h)

end Tree

namespace Site

theorem mem_of_lookup {scans : List (WorkerId × Scanning)} (hl : scans.lookup w = some s) :
    (w, s) ∈ scans := by
  obtain ⟨before, after, rfl, -⟩ := lookup_eq_some_iff.mp hl
  exact mem_append_right _ mem_cons_self

theorem mem_put {scans : List (WorkerId × Scanning)} (hm : (v, s') ∈ put w s scans) :
    v = w ∧ s' = s ∨ v ≠ w ∧ (v, s') ∈ scans := by
  simp only [put, mem_cons, Prod.mk.injEq, mem_filter, decide_eq_true_eq] at hm
  exact hm.imp_right fun hm => ⟨hm.2, hm.1⟩

theorem close_sub {scans : List (WorkerId × Scanning)} {fleet : Fleet} {l : Label}
    (h : close scans fleet l = some scans') : scans' ⊆ scans := by
  unfold close at h
  split at h
  · cases h
    exact filter_sublist.subset
  · split at h
    · cases h
      exact Subset.refl _
    · split at h
      · cases h
        exact Subset.refl _
      · split at h
        · cases h
          exact filter_sublist.subset
        · cases h
  · cases h
    exact Subset.refl _

structure Apart (h : Site) : Prop where
  inside : ∀ w s, (w, s) ∈ h.scans → ∀ op ∈ s.todo, op.inside s.job = true
  owned : ∀ w s, (w, s) ∈ h.scans → ∀ p, h.files p = some (some w) →
    under (jobRoot s.job) p = true ∨ under p (jobRoot s.job) = true
  jobs : ∀ w s w' s', (w, s) ∈ h.scans → (w', s') ∈ h.scans → w ≠ w' → s.todo ≠ [] →
    s'.todo ≠ [] → s.job ≠ s'.job

theorem Apart.init (files : Tree) : Apart (machine cfg files).init where
  inside _ _ hm := by cases hm
  owned _ _ hm := by cases hm
  jobs _ _ _ _ hm := by cases hm

theorem Apart.begin (hi : Apart h) (hc : c.inside u = true) (ha : alone h (.begin w u c) = true) :
    Apart { h with files := h.files.disown w, scans := put w ⟨u, c.ops u⟩ h.scans } where
  inside v s hm := by
    rcases mem_put hm with ⟨-, rfl⟩ | ⟨-, hm⟩
    · exact Course.ops_inside hc
    · exact hi.inside v s hm
  owned v s hm p hp := by
    obtain ⟨hp, hv⟩ := Tree.disown_owner hp
    rcases mem_put hm with ⟨rfl, -⟩ | ⟨-, hm⟩
    · exact absurd rfl hv
    · exact hi.owned v s hm p hp
  jobs v s v' s' hm hm' hne ht ht' := by
    have hother : ∀ v s, v ≠ w → (v, s) ∈ h.scans → s.todo ≠ [] → s.job ≠ u := by
      intro v s hv hm ht
      have := List.all_eq_true.mp ha _ hm
      simpa [hv, ht] using this
    rcases mem_put hm with ⟨rfl, rfl⟩ | ⟨hv, hs⟩ <;>
      rcases mem_put hm' with ⟨hv', rfl⟩ | ⟨hv', hs'⟩
    · exact absurd hv'.symm hne
    · exact (hother v' s' hv' hs' ht').symm
    · exact hother v s hv hs ht
    · exact hi.jobs v s v' s' hs hs' hne ht ht'

theorem Apart.file (hi : Apart h) (hw : (w, ⟨u, op :: todo⟩) ∈ h.scans) :
    Apart { h with files := h.files.exec w op, scans := put w ⟨u, todo⟩ h.scans } where
  inside v s hm := by
    rcases mem_put hm with ⟨-, rfl⟩ | ⟨-, hm⟩
    · exact fun op' hop => hi.inside w _ hw op' (mem_cons_of_mem _ hop)
    · exact hi.inside v s hm
  owned v s hm p hp := by
    have hop := hi.inside w _ hw op mem_cons_self
    rcases mem_put hm with ⟨rfl, rfl⟩ | ⟨hv, hm⟩
    · rcases Tree.exec_owner hop hp with hp | hp
      · exact hi.owned v _ hw p hp
      · exact hp.2
    · rcases Tree.exec_owner hop hp with hp | hp
      · exact hi.owned v s hm p hp
      · exact absurd hp.1 hv
  jobs v s v' s' hm hm' hne ht ht' := by
    rcases mem_put hm with ⟨rfl, rfl⟩ | ⟨hv, hs⟩ <;>
      rcases mem_put hm' with ⟨rfl, rfl⟩ | ⟨hv', hs'⟩
    · exact absurd rfl hne
    · exact hi.jobs v ⟨u, op :: todo⟩ v' s' hw hs' hne (by simp) ht'
    · exact hi.jobs v s v' ⟨u, op :: todo⟩ hs hw hne ht (by simp)
    · exact hi.jobs v s v' s' hs hs' hne ht ht'

theorem Apart.step (hi : Apart h) (ha : alone h l = true) (hs : step cfg h l = some h') :
    Apart h' := by
  cases l with
  | queue l =>
    obtain ⟨⟨_, fleet⟩, -, hs⟩ := bind_eq_some_iff.mp hs
    obtain ⟨scans, hc, rfl⟩ := map_eq_some_iff.mp hs
    have hsub := close_sub hc
    exact ⟨fun w s hm => hi.inside w s (hsub hm), fun w s hm => hi.owned w s (hsub hm),
      fun w s w' s' hm hm' => hi.jobs w s w' s' (hsub hm) (hsub hm')⟩
  | begin w u c =>
    simp only [Site.step, Bool.and_eq_true] at hs
    split at hs
    case isTrue hg =>
      cases hs
      exact hi.begin hg.2 ha
    case isFalse => cases hs
  | file w =>
    simp only [Site.step] at hs
    split at hs
    case h_1 hw =>
      cases hs
      exact hi.file (mem_of_lookup hw)
    case h_2 => cases hs

theorem Apart.not_destroys (hi : Apart h) (w w' : WorkerId) (p : List Char) :
    ¬ Destroys h w w' p := by
  rintro ⟨hne, s, s', hs, hs', hc, hp, hu, hr⟩
  have hm := mem_of_lookup hs
  have hm' := mem_of_lookup hs'
  have hl : (jobRoot s.job).length = (jobRoot s'.job).length := by simp only [jobRoot_length]
  have hjob : s.job ≠ s'.job :=
    hi.jobs w s w' s' hm hm' hne (by simp [hc]) (ne_nil_of_mem hr)
  refine hjob (jobRoot_inj ?_)
  rcases hi.owned w' s' hm' p hp with hp | hp
  · exact eq_of_under hl hu hp
  · exact eq_of_under hl (under_trans hu hp) (under_refl _)

/-- Where no scan of a job starts during another, no clean-up takes anything from a scan
in progress. -/
theorem lone_scan_undisturbed {files : Tree}
    (hr : (machine cfg files).Reach (fun h l => alone h l = true) (machine cfg files).init h)
    (w w' : WorkerId) (p : List Char) : ¬ Destroys h w w' p :=
  (hr.invariant (Apart.init files) fun _ _ _ hi ha hs => hi.step ha hs).not_destroys w w' p

end Site

def jobB : Uuid :=
  ⟨"e4a9d7c0-1f3b-4b58-9c07-52d86a10bf4e".toList, by decide, Text.forall_of_all (by decide)⟩

def deliveredRun (w : WorkerId) (u : Uuid) : List Label :=
  [.upload 0 { id := String.ofList u.text, storageKey := "job.apk" } 0, .serve 0 .ok,
    .serve 0 .ok, .start w, .work w (.time 0), .work w .ok, .turn w, .work w .ok] ++ claimRun w

def decompiled (u : Uuid) : List Char := getSourceDir u ++ "/Main.smali".toList

def decompileCourse (u : Uuid) : Course :=
  .scan [.removeAll (getSourceDir u), .mkdirAll (getSourceDir u), .write (decompiled u),
    .read (decompiled u)]

def cleaningRun : List SiteLabel :=
  (deliveredRun "w" jobA).map .queue ++ .begin "w" jobA (decompileCourse jobA) ::
    List.replicate 12 (.file "w")

def readingRun (u : Uuid) : List SiteLabel :=
  .begin "v" u (decompileCourse u) :: List.replicate 11 (.file "v")

def overlapRun : List SiteLabel :=
  cleaningRun ++ (reapRun ++ takeoverRun.take 13).map .queue ++ readingRun jobA

def apartRun : List SiteLabel :=
  cleaningRun ++ (deliveredRun "v" jobB).map .queue ++ readingRun jobB

def emptyHost : Machine Site SiteLabel := Site.machine {} fun _ => none

def readingScans (u : Uuid) : List (WorkerId × Scanning) :=
  [("v", ⟨u, [.read (decompiled u), cleanupWorkspace u]⟩), ("w", ⟨jobA, [cleanupWorkspace jobA]⟩)]

theorem readingRun_state (b : Site → SiteLabel → Bool) (ls : List SiteLabel) (u : Uuid)
    (h : (emptyHost.execIf b emptyHost.init ls).map
      (fun h => (h.scans, h.files (decompiled u))) = some (readingScans u, some (some "v"))) :
    ∃ h, emptyHost.Reach (fun h l => b h l = true) emptyHost.init h ∧ h.scans = readingScans u ∧
      h.files (decompiled u) = some (some "v") := by
  obtain ⟨h, hh, hv⟩ := map_eq_some_iff.mp h
  exact ⟨h, Machine.reach_of_execIf (fun _ _ => id) ls hh, Prod.mk.inj hv⟩

/-- The late worker cleans up the directory from which `v` is about to read. -/
theorem overlapping_scan_destroyed :
    ∃ h, emptyHost.Reach Machine.anyStep emptyHost.init h ∧ h.scans = readingScans jobA ∧
      h.Destroys "w" "v" (decompiled jobA) := by
  obtain ⟨h, hr, hs, hf⟩ :=
    readingRun_state (fun _ _ => true) overlapRun jobA (by decide +kernel)
  refine ⟨h, hr.mono fun _ _ _ => trivial, hs, by decide, ⟨jobA, [cleanupWorkspace jobA]⟩,
    ⟨jobA, [.read (decompiled jobA), cleanupWorkspace jobA]⟩, ?_, ?_, rfl, hf, by decide,
    mem_cons_self⟩
  · rw [hs]; rfl
  · rw [hs]; rfl

/-- Two jobs on one host: `w` is about to clean up while `v` still reads. -/
theorem other_scan_undisturbed :
    ∃ h, emptyHost.Reach (fun h l => h.alone l = true) emptyHost.init h ∧
      h.scans = readingScans jobB ∧ h.files (decompiled jobB) = some (some "v") ∧
      ∀ w w' p, ¬ h.Destroys w w' p := by
  obtain ⟨h, hr, hs, hf⟩ :=
    readingRun_state Site.alone apartRun jobB (by decide +kernel)
  exact ⟨h, hr, hs, hf, Site.lone_scan_undisturbed hr⟩

end Morf.Scan
