import Morf.Lib.Keyed
import Morf.Sbom.Purl

/-! `EnrichFromAndroidLockfiles` of `apk/lockfiles.go` and `EnrichFromIOSLockfiles` of
`ios/lockfiles.go`: versions from lockfiles are added to the components of an inventory. -/

namespace Morf.Lockfile

open Morf.Lib Morf.Lib.Keyed Morf.Sbom
open scoped List
open List Option

structure LockedVersions where
  path : Text
  versions : List (Text × Text)

/-- The component gets a version if it has none, and another package URL. -/
def upgrade (purl version : Text) (c : SBOMComponent) : SBOMComponent :=
  { c with version := if c.version = [] then version else c.version, purl }

def newLockfileComponent (name version lockfilePath : Text) : SBOMComponent :=
  let (purl, group) := (purlFor name [] version).getD (withVersion ("pkg:generic/".toList ++ name) version, [])
  { type := .library
    name
    version
    bomRef := bomRefOf "lockfile" name
    purl
    group
    occurrences := [lockfilePath].filter (· ≠ []) }

structure AndroidIndex where
  heap : List SBOMComponent
  byName : Text → Option Nat
  order : List Text

namespace AndroidIndex

def push (s : AndroidIndex) (c : SBOMComponent) : AndroidIndex :=
  { heap := s.heap ++ [c]
    byName := Function.update s.byName c.name (some s.heap.length)
    order := s.order ++ [c.name] }

def add (s : AndroidIndex) (c : SBOMComponent) : AndroidIndex :=
  if (s.byName c.name).isSome then s else s.push c

def index (components : List SBOMComponent) : AndroidIndex :=
  components.foldl add { heap := [], byName := fun _ => none, order := [] }

def applyVersion (purlOf : Text → Text → Text) (tag : String) (lockfilePath : Text)
    (s : AndroidIndex) (entry : Text × Text) : AndroidIndex :=
  let (name, ver) := entry
  let purl := purlOf name ver
  match s.byName name with
  | some i => { s with heap := s.heap.modify i (upgrade purl ver) }
  | none => s.push
    { newLockfileComponent name ver lockfilePath with purl, bomRef := bomRefOf tag name }

def applyVersions (purlOf : Text → Text → Text) (tag : String) (s : AndroidIndex)
    (lockfile : Option LockedVersions) : AndroidIndex :=
  match lockfile with
  | none => s
  | some f => f.versions.foldl (applyVersion purlOf tag f.path) s

end AndroidIndex

/-- `package-lock.json` takes precedence over `yarn.lock` if it has any versions. -/
def enrichFromAndroidLockfiles (pubspec packageLock yarn : Option LockedVersions)
    (components : List SBOMComponent) : List SBOMComponent :=
  let s := AndroidIndex.index components
  let s := s.applyVersions pubPurl "pub" pubspec
  let s := s.applyVersions npmPurl "npm" packageLock
  let npmHandled := packageLock.any fun f => f.versions ≠ []
  let s := if npmHandled then s else s.applyVersions npmPurl "npm" yarn
  s.order.filterMap fun name => (s.byName name).bind (s.heap[·]?)

def newIOSLockfileComponent (name version lockfilePath : Text) : SBOMComponent :=
  { type := .library
    name
    version
    bomRef := bomRefOf "lockfile" name
    purl := withVersion ("pkg:generic/".toList ++ name) version
    occurrences := [lockfilePath].filter (· ≠ []) }

def podPurlName (name : Text) : Text := name.takeWhile (· ≠ '/')

def podPurl (name version : Text) : Text := purlOf "cocoapods" (podPurlName name) version

def titleCase : Text → Text
  | [] => []
  | c :: s => c.toUpper :: s

def spmPurl (name version : Text) : Text :=
  ((purlFor name [] version).or (purlFor (titleCase name) [] version)).elim
    (purlOf "swift" ("unknown/".toList ++ name) version) Prod.fst

structure IOSIndex where
  heap : List SBOMComponent
  byName : Text → Option Nat
  byOrig : Text → Option Nat
  order : List Text

namespace IOSIndex

variable (toLower : Text → Text)

def push (s : IOSIndex) (c : SBOMComponent) : IOSIndex :=
  { heap := s.heap ++ [c]
    byName := Function.update s.byName (toLower c.name) (some s.heap.length)
    byOrig := Function.update s.byOrig c.name (some s.heap.length)
    order := s.order ++ [c.name] }

def add (s : IOSIndex) (c : SBOMComponent) : IOSIndex :=
  if (s.byName (toLower c.name)).isSome then s else s.push toLower c

def index (components : List SBOMComponent) : IOSIndex :=
  components.foldl (add toLower) { heap := [], byName := fun _ => none, byOrig := fun _ => none, order := [] }

def lookup (s : IOSIndex) (name : Text) : Option Nat := (s.byOrig name).or (s.byName (toLower name))

def applyVersion (purlOf : Text → Text → Text) (tag : String) (lockfilePath : Text)
    (s : IOSIndex) (entry : Text × Text) : IOSIndex :=
  let (name, ver) := entry
  let purl := purlOf name ver
  match s.lookup toLower name with
  | some i => { s with heap := s.heap.modify i (upgrade purl ver) }
  | none => s.push toLower
    { newIOSLockfileComponent name ver lockfilePath with purl, bomRef := bomRefOf tag name }

def applyVersions (purlOf : Text → Text → Text) (tag : String) (s : IOSIndex)
    (lockfile : Option LockedVersions) : IOSIndex :=
  match lockfile with
  | none => s
  | some f => f.versions.foldl (applyVersion toLower purlOf tag f.path) s

end IOSIndex

/-- `toLower` is `strings.ToLower`. -/
def enrichFromIOSLockfiles (toLower : Text → Text) (podfile packageResolved : Option LockedVersions)
    (components : List SBOMComponent) : List SBOMComponent :=
  let s := IOSIndex.index toLower components
  let s := s.applyVersions toLower podPurl "pod" podfile
  let s := s.applyVersions toLower spmPurl "spm" packageResolved
  s.order.filterMap fun name => (s.lookup toLower name).bind (s.heap[·]?)

def identity (c : SBOMComponent) : Text × ComponentType × Text × List Text :=
  (c.name, c.type, c.bomRef, c.occurrences)

theorem name_upgrade (purl version : Text) (c : SBOMComponent) : (upgrade purl version c).name = c.name :=
  rfl

def Continues (l l' : List SBOMComponent) : Prop := l.map identity <+: l'.map identity

/-- One lockfile entry at work on the list of components: those with its key are upgraded, or it is
added. -/
def merge (key : SBOMComponent → Text) (l : List SBOMComponent) (new : SBOMComponent) :
    List SBOMComponent :=
  if key new ∈ l.map key then change key (key new) (upgrade new.purl new.version) l else l ++ [new]

def keep (key : SBOMComponent → Text) (l : List SBOMComponent) (c : SBOMComponent) :
    List SBOMComponent :=
  if key c ∈ l.map key then l else l ++ [c]

def lockedComponent (new : Text → Text → Text → SBOMComponent) (purlOf : Text → Text → Text)
    (tag : String) (lockfilePath : Text) (entry : Text × Text) : SBOMComponent :=
  { new entry.1 entry.2 lockfilePath with
    purl := purlOf entry.1 entry.2, bomRef := bomRefOf tag entry.1 }

def lockedComponents (new : Text → Text → Text → SBOMComponent) (purlOf : Text → Text → Text)
    (tag : String) (lockfile : Option LockedVersions) : List SBOMComponent :=
  lockfile.elim [] fun f => f.versions.map (lockedComponent new purlOf tag f.path)

theorem merge_of_mem (h : key new ∈ l.map key) :
    merge key l new = change key (key new) (upgrade new.purl new.version) l := if_pos h

theorem merge_of_not_mem (h : key new ∉ l.map key) : merge key l new = l ++ [new] := if_neg h

theorem continues_merge (key : SBOMComponent → Text) (l : List SBOMComponent) (new : SBOMComponent) :
    Continues l (merge key l new) := by
  rw [merge]
  split
  · have hsame : (change key (key new) (upgrade new.purl new.version) l).map identity = l.map identity :=
      map_change (show ∀ c, identity (upgrade new.purl new.version c) = identity c from fun _ => rfl) l
    exact ⟨[], (append_nil _).trans hsame.symm⟩
  · rw [Continues, map_append]
    exact List.prefix_append _ _

theorem continues_foldl_merge (key : SBOMComponent → Text) (l new : List SBOMComponent) :
    Continues l (new.foldl (merge key) l) := by
  induction new generalizing l with
  | nil => exact prefix_rfl
  | cons c new ih => exact IsPrefix.trans (continues_merge key l c) (ih _)

theorem foldl_keep_of_nodup {components : List SBOMComponent} (h : (components.map key).Nodup) :
    components.foldl (keep key) [] = components := by
  induction components using reverseRecOn with
  | nil => rfl
  | append_singleton components c ih =>
    rw [map_append, nodup_append] at h
    rw [foldl_append, ih h.1]
    exact if_neg fun hc => h.2.2 _ hc _ mem_cons_self rfl

theorem foldl_shows {σ ε : Type} {Shows : σ → List SBOMComponent → Prop} {step : σ → ε → σ}
    {next : List SBOMComponent → ε → List SBOMComponent}
    (hstep : ∀ {s l}, Shows s l → ∀ e, Shows (step s e) (next l e)) {s : σ} (h : Shows s l)
    (es : List ε) : Shows (es.foldl step s) (es.foldl next l) := by
  induction es generalizing s l with
  | nil => exact h
  | cons e es ih => exact ih (hstep h e)

namespace IOSIndex

def keyOf (toLower : Text → Text) (c : SBOMComponent) : Text := toLower c.name

structure Shows (toLower : Text → Text) (s : IOSIndex) (l : List SBOMComponent) : Prop where
  heap : s.heap = l
  order : s.order = l.map SBOMComponent.name
  byName : Points (keyOf toLower) s.byName l
  byOrig : Points SBOMComponent.name s.byOrig l
  nodup : (l.map (keyOf toLower)).Nodup

variable {l : List SBOMComponent}

theorem shows_nil : Shows toLower ⟨[], fun _ => none, fun _ => none, []⟩ [] :=
  ⟨rfl, rfl, Points.nil, Points.nil, nodup_nil⟩

theorem not_mem_names (h : toLower name ∉ l.map (keyOf toLower)) :
    name ∉ l.map SBOMComponent.name := by
  intro hmem
  obtain ⟨c, hc, rfl⟩ := List.mem_map.mp hmem
  exact h (List.mem_map_of_mem hc)

theorem Shows.lookup_eq (h : Shows toLower s l) (name : Text) :
    s.lookup toLower name = s.byName (toLower name) := by
  rw [IOSIndex.lookup]
  cases hname : s.byOrig name with
  | none => rfl
  | some i =>
    obtain ⟨hi, rfl⟩ := h.byOrig.eq_some hname
    exact (h.byName.of_getElem h.nodup hi).symm

theorem Shows.components (h : Shows toLower s l) :
    s.order.filterMap (fun name => (s.lookup toLower name).bind (s.heap[·]?)) = l := by
  have hkeys := h.byName.filterMap_eq h.nodup
  rw [filterMap_map] at hkeys
  rw [h.order, h.heap, filterMap_map]
  refine Eq.trans (filterMap_congr fun c _ => ?_) hkeys
  rw [Function.comp_apply, h.lookup_eq]
  rfl

theorem Shows.push (h : Shows toLower s l) (hc : keyOf toLower c ∉ l.map (keyOf toLower)) :
    Shows toLower (s.push toLower c) (l ++ [c]) where
  heap := congrArg (· ++ [c]) h.heap
  order := by
    rw [IOSIndex.push, h.order, map_append]
    rfl
  byName := by
    rw [IOSIndex.push, h.heap]
    exact h.byName.concat hc
  byOrig := by
    rw [IOSIndex.push, h.heap]
    exact h.byOrig.concat (not_mem_names hc)
  nodup := nodup_concat h.nodup hc

theorem Shows.add (h : Shows toLower s l) (c : SBOMComponent) :
    Shows toLower (s.add toLower c) (keep (keyOf toLower) l c) := by
  have hadd : s.add toLower c = if (s.byName (keyOf toLower c)).isSome then s else s.push toLower c := rfl
  by_cases hc : keyOf toLower c ∈ l.map (keyOf toLower)
  · rw [hadd, if_pos (h.byName.isSome_iff.mpr hc), keep, if_pos hc]
    exact h
  · rw [hadd, if_neg (mt h.byName.isSome_iff.mp hc), keep, if_neg hc]
    exact h.push hc

theorem Shows.merged (h : Shows toLower s l) (new : SBOMComponent) :
    Shows toLower (match s.lookup toLower new.name with
      | some i => { s with heap := s.heap.modify i (upgrade new.purl new.version) }
      | none => s.push toLower new) (merge (keyOf toLower) l new) := by
  rw [h.lookup_eq]
  cases hname : s.byName (toLower new.name) with
  | some i =>
    have hsame : ∀ f : SBOMComponent → Text, (∀ c, f (upgrade new.purl new.version c) = f c) →
        (change (keyOf toLower) (keyOf toLower new) (upgrade new.purl new.version) l).map f = l.map f :=
      fun f hf => map_change hf l
    have hnames := hsame SBOMComponent.name fun _ => rfl
    have hkeys := hsame (keyOf toLower) fun _ => rfl
    rw [merge_of_mem (h.byName.isSome_iff.mp (isSome_of_eq_some hname))]
    exact ⟨by rw [h.heap]; exact h.byName.modify_eq h.nodup hname, h.order.trans hnames.symm,
      h.byName.of_keys hkeys, h.byOrig.of_keys hnames, hkeys ▸ h.nodup⟩
  | none =>
    have hnew := h.byName.eq_none_iff.mp hname
    rw [merge_of_not_mem hnew]
    exact h.push hnew

theorem Shows.applyVersions (h : Shows toLower s l) (purlOf : Text → Text → Text) (tag : String)
    (lockfile : Option LockedVersions) : Shows toLower (s.applyVersions toLower purlOf tag lockfile)
      ((lockedComponents newIOSLockfileComponent purlOf tag lockfile).foldl (merge (keyOf toLower)) l) := by
  cases lockfile with
  | none => exact h
  | some f =>
    rw [lockedComponents, elim_some, foldl_map]
    exact foldl_shows (fun h e => h.merged (lockedComponent newIOSLockfileComponent purlOf tag f.path e)) h
      f.versions

def locked (podfile packageResolved : Option LockedVersions) : List SBOMComponent :=
  lockedComponents newIOSLockfileComponent podPurl "pod" podfile ++
    lockedComponents newIOSLockfileComponent spmPurl "spm" packageResolved

theorem enriched_eq (toLower : Text → Text) (podfile packageResolved : Option LockedVersions)
    (components : List SBOMComponent) :
    ∃ l, enrichFromIOSLockfiles toLower podfile packageResolved components = l ∧
      (l.map (keyOf toLower)).Nodup ∧ l = (locked podfile packageResolved).foldl
        (merge (keyOf toLower)) (components.foldl (keep (keyOf toLower)) []) := by
  have hindex : Shows toLower (index toLower components) (components.foldl (keep (keyOf toLower)) []) :=
    foldl_shows (fun h => h.add) shows_nil components
  have h₂ := (hindex.applyVersions podPurl "pod" podfile).applyVersions spmPurl "spm" packageResolved
  rw [locked, foldl_append]
  exact ⟨_, h₂.components, h₂.nodup, rfl⟩

end IOSIndex

namespace AndroidIndex

/-- An index of the other kind, for names that are compared as they are. -/
def twin (s : AndroidIndex) : IOSIndex := ⟨s.heap, s.byName, s.byName, s.order⟩

def Shows (s : AndroidIndex) (l : List SBOMComponent) : Prop := s.twin.Shows id l

theorem Shows.byName_eq (h : Shows s l) (name : Text) : s.twin.lookup id name = s.byName name :=
  h.lookup_eq name

theorem Shows.components (h : Shows s l) :
    s.order.filterMap (fun name => (s.byName name).bind (s.heap[·]?)) = l := by
  have hcomponents := IOSIndex.Shows.components h
  simp only [h.byName_eq] at hcomponents
  exact hcomponents

theorem Shows.add (h : Shows s l) (c : SBOMComponent) : Shows (s.add c) (keep SBOMComponent.name l c) := by
  have htwin : (s.add c).twin = s.twin.add id c := apply_ite twin ..
  rw [Shows, htwin]
  exact IOSIndex.Shows.add h c

theorem Shows.applyVersion (h : Shows s l) (purlOf : Text → Text → Text) (tag : String)
    (lockfilePath : Text) (entry : Text × Text) : Shows (s.applyVersion purlOf tag lockfilePath entry)
      (merge SBOMComponent.name l (lockedComponent newLockfileComponent purlOf tag lockfilePath entry)) := by
  have hmerge := IOSIndex.Shows.merged h (lockedComponent newLockfileComponent purlOf tag lockfilePath entry)
  rw [h.byName_eq] at hmerge
  change IOSIndex.Shows id (match s.byName entry.1 with | some i => _ | none => _) _ at hmerge
  rw [AndroidIndex.applyVersion, Shows]
  cases hname : s.byName entry.1 with
  | some i =>
    rw [hname] at hmerge
    exact hmerge
  | none =>
    rw [hname] at hmerge
    exact hmerge

theorem Shows.applyVersions (h : Shows s l) (purlOf : Text → Text → Text) (tag : String)
    (lockfile : Option LockedVersions) : Shows (s.applyVersions purlOf tag lockfile)
      ((lockedComponents newLockfileComponent purlOf tag lockfile).foldl (merge SBOMComponent.name) l) := by
  cases lockfile with
  | none => exact h
  | some f =>
    rw [lockedComponents, elim_some, foldl_map]
    exact foldl_shows (fun h => h.applyVersion purlOf tag f.path) h f.versions

def locked (pubspec packageLock yarn : Option LockedVersions) : List SBOMComponent :=
  lockedComponents newLockfileComponent pubPurl "pub" pubspec ++
    lockedComponents newLockfileComponent npmPurl "npm" packageLock ++
    if packageLock.any fun f => f.versions ≠ [] then []
    else lockedComponents newLockfileComponent npmPurl "npm" yarn

theorem enriched_eq (pubspec packageLock yarn : Option LockedVersions) (components : List SBOMComponent) :
    ∃ l, enrichFromAndroidLockfiles pubspec packageLock yarn components = l ∧
      (l.map SBOMComponent.name).Nodup ∧ l = (locked pubspec packageLock yarn).foldl
        (merge SBOMComponent.name) (components.foldl (keep SBOMComponent.name) []) := by
  have hindex : Shows (index components) (components.foldl (keep SBOMComponent.name) []) :=
    foldl_shows (fun h => h.add) (show Shows ⟨[], fun _ => none, []⟩ [] from IOSIndex.shows_nil) components
  have h₂ := (hindex.applyVersions pubPurl "pub" pubspec).applyVersions npmPurl "npm" packageLock
  rw [enrichFromAndroidLockfiles, locked, foldl_append, foldl_append]
  cases packageLock.any fun f => f.versions ≠ [] with
  | true => exact ⟨_, h₂.components, h₂.nodup, rfl⟩
  | false =>
    have h₃ := h₂.applyVersions npmPurl "npm" yarn
    exact ⟨_, h₃.components, h₃.nodup, rfl⟩

end AndroidIndex

def OnlyAdds (components enriched : List SBOMComponent) (found : Prop) : Prop :=
  components.map identity <+ enriched.map identity ∧ (¬ found → enriched = components)

theorem onlyAdds_iff {φ : Text → Text} (hnodup : (l.map fun c => φ c.name).Nodup)
    (hl : l = locked.foldl (merge fun c => φ c.name)
      (components.foldl (keep fun c => φ c.name) [])) (hnone : ¬ found → locked = []) :
    OnlyAdds components l found ↔ (components.map fun c => φ c.name).Nodup := by
  constructor
  · intro h
    have hsub := h.1.map fun t => φ t.1
    rw [List.map_map, List.map_map] at hsub
    exact hnodup.sublist hsub
  · intro h
    rw [foldl_keep_of_nodup h] at hl
    subst hl
    refine ⟨(continues_foldl_merge _ components locked).sublist, fun hfound => ?_⟩
    rw [hnone hfound, foldl_nil]

/-- Enrichment only adds to an inventory if its components have distinct names, and on iOS names
that differ in more than case. -/
theorem enrichment_only_adds_iff (components : List SBOMComponent) :
    (∀ pubspec packageLock yarn,
      OnlyAdds components (enrichFromAndroidLockfiles pubspec packageLock yarn components)
          (pubspec.isSome ∨ packageLock.isSome ∨ yarn.isSome) ↔
        (components.map fun c => c.name).Nodup) ∧
    ∀ toLower podfile packageResolved,
      OnlyAdds components (enrichFromIOSLockfiles toLower podfile packageResolved components)
          (podfile.isSome ∨ packageResolved.isSome) ↔
        (components.map fun c => toLower c.name).Nodup := by
  refine ⟨fun pubspec packageLock yarn => ?_, fun toLower podfile packageResolved => ?_⟩
  · obtain ⟨l, hl, hnodup, hfold⟩ := AndroidIndex.enriched_eq pubspec packageLock yarn components
    rw [hl]
    refine onlyAdds_iff (φ := id) hnodup hfold fun hnone => ?_
    simp only [not_or, not_isSome_iff_eq_none] at hnone
    rw [hnone.1, hnone.2.1, hnone.2.2]
    rfl
  · obtain ⟨l, hl, hnodup, hfold⟩ :=
      IOSIndex.enriched_eq toLower podfile packageResolved components
    rw [hl]
    refine onlyAdds_iff hnodup hfold fun hnone => ?_
    simp only [not_or, not_isSome_iff_eq_none] at hnone
    rw [hnone.1, hnone.2]
    rfl

def realmComponents : List SBOMComponent :=
  [newFrameworkComponent "Realm".toList "10.1".toList [] "Frameworks/Realm.framework".toList,
    newImportedLibraryComponent "Realm".toList "Frameworks/App".toList]

/-- Without any lockfile, the second component is lost; on iOS also if only its case differs. -/
theorem imported_library_lost :
    enrichFromAndroidLockfiles none none none realmComponents = realmComponents.take 1 ∧
      enrichFromIOSLockfiles (List.map Char.toLower) none none realmComponents =
        realmComponents.take 1 ∧
      (enrichFromIOSLockfiles (List.map Char.toLower) none none
        [newDylibComponent "Charts".toList [], newDylibComponent "charts".toList []]).map
          SBOMComponent.name = ["Charts".toList] ∧
      realmComponents.length = 2 := by decide +kernel

end Morf.Lockfile
