import Morf.Lockfile.Enrich

/-! Whether the package URLs of enriched components carry the versions that the components state. -/

namespace Morf.Lockfile

open Morf.Lib Morf.Lib.Keyed Morf.Sbom
open List Option

/-- A version in the package URL is that of the component. -/
def Consistent (c : SBOMComponent) : Prop :=
  (splitVersion c.purl).2 ≠ [] → (splitVersion c.purl).2 = c.version

instance (c : SBOMComponent) : Decidable (Consistent c) := inferInstanceAs (Decidable (_ → _))

/-- The version that is stated first. -/
def stated (cs : List SBOMComponent) : Text := ((cs.map SBOMComponent.version).find? (· ≠ [])).getD []

section Merging

variable {φ : Text → Text} {l : List SBOMComponent}

/-- The component that the lockfile entries for one name make of it. -/
def upgraded (c : SBOMComponent) (locked : List SBOMComponent) : SBOMComponent :=
  locked.foldl (fun c new => upgrade new.purl new.version c) c

theorem stated_cons (c : SBOMComponent) (cs : List SBOMComponent) :
    stated (c :: cs) = if c.version = [] then stated cs else c.version := by
  rw [stated, map_cons, find?_cons]
  by_cases h : c.version = []
  · rw [if_pos h, decide_eq_false (not_not.mpr h)]
    rfl
  · rw [if_neg h, decide_eq_true h]
    rfl

theorem version_upgraded (c : SBOMComponent) (locked : List SBOMComponent) :
    (upgraded c locked).version = stated (c :: locked) := by
  induction locked generalizing c with
  | nil =>
    rw [stated_cons]
    split
    · assumption
    · rfl
  | cons new locked ih =>
    rw [upgraded, foldl_cons, ← upgraded, ih, stated_cons, stated_cons c, stated_cons new]
    by_cases h : c.version = [] <;> simp [upgrade, h]

theorem purl_upgraded (h : locked.getLast? = some last) : (upgraded c locked).purl = last.purl := by
  obtain ⟨locked, rfl⟩ := getLast?_eq_some_iff.mp h
  rw [upgraded, foldl_append]
  rfl

theorem find_keep (l : List SBOMComponent) (c : SBOMComponent) :
    (keep (fun c => φ c.name) l c).find? (fun c => φ c.name = k) =
      (l ++ [c]).find? fun c => φ c.name = k := by
  rw [keep]
  split
  · rename_i hc
    obtain ⟨x, hx, hkey⟩ := List.mem_map.mp hc
    rw [find?_append]
    cases hl : l.find? fun c => φ c.name = k with
    | some y => rfl
    | none =>
      have hne : ¬ φ c.name = k := fun h => find?_eq_none.mp hl x hx (by simpa [h] using hkey)
      simp [hne]
  · rfl

theorem find_foldl_keep (components : List SBOMComponent) :
    (components.foldl (keep fun c => φ c.name) []).find? (fun c => φ c.name = k) =
      components.find? fun c => φ c.name = k := by
  induction components using reverseRecOn with
  | nil => rfl
  | append_singleton components c ih =>
    rw [foldl_append, foldl_cons, foldl_nil, find_keep, find?_append, ih,
      find?_append]

theorem find_change (hf : ∀ c, (f c).name = c.name) (k' : Text) (l : List SBOMComponent) :
    (change (fun c => φ c.name) k' f l).find? (fun c => φ c.name = k) =
      (l.find? fun c => φ c.name = k).map fun c => if k = k' then f c else c := by
  induction l with
  | nil => rfl
  | cons c l ih =>
    have hname : (if φ c.name = k' then f c else c).name = c.name := by
      split
      · exact hf c
      · rfl
    rw [change, map_cons, ← change, find?_cons, find?_cons, ih, hname]
    by_cases hk : φ c.name = k <;> simp [hk]

theorem find_of_mem (hl : (l.map fun c => φ c.name).Nodup) (hc : c ∈ l) :
    (l.find? fun x => φ x.name = φ c.name) = some c := by
  induction l with
  | nil => cases hc
  | cons x l ih =>
    rw [map_cons, nodup_cons] at hl
    rcases mem_cons.mp hc with rfl | hc
    · simp
    · have hne : φ x.name ≠ φ c.name := fun h => hl.1 (h ▸ List.mem_map_of_mem hc)
      rw [find?_cons_of_neg (by simpa using hne), ih hl.2 hc]

theorem find_merge (l : List SBOMComponent) (new : SBOMComponent) :
    (merge (fun c => φ c.name) l new).find? (fun c => φ c.name = k) =
      if φ new.name = k then
        some (((l.find? fun c => φ c.name = k).map (upgrade new.purl new.version)).getD new)
      else l.find? fun c => φ c.name = k := by
  have hmem : φ new.name ∈ l.map (fun c => φ c.name) ↔ ∃ c ∈ l, φ c.name = φ new.name := List.mem_map
  rw [merge]
  split
  · rename_i hnew
    rw [find_change (name_upgrade _ _)]
    by_cases hk : φ new.name = k
    · obtain ⟨c, hc, hkey⟩ := hmem.mp hnew
      cases hl : l.find? fun c => φ c.name = k with
      | none => exact absurd (hkey.trans hk) (by simpa using find?_eq_none.mp hl c hc)
      | some c => simp [hk]
    · simp [hk, Ne.symm hk]
  · rename_i hnew
    rw [find?_append]
    by_cases hk : φ new.name = k
    · have hl : (l.find? fun c => φ c.name = k) = none := by
        rw [find?_eq_none]
        intro c hc hkey
        exact hnew (hmem.mpr ⟨c, hc, (of_decide_eq_true hkey).trans hk.symm⟩)
      simp [hl, hk]
    · simp [hk]

/-- The first of some components for one name, upgraded by the others. -/
def combined : List SBOMComponent → Option SBOMComponent
  | [] => none
  | c :: locked => some (upgraded c locked)

theorem find_foldl_merge (locked l : List SBOMComponent) :
    (locked.foldl (merge fun c => φ c.name) l).find? (fun c => φ c.name = k) =
      combined ((l.find? fun c => φ c.name = k).toList ++ locked.filter fun c => φ c.name = k) := by
  induction locked generalizing l with
  | nil =>
    rw [foldl_nil]
    cases l.find? (fun c => φ c.name = k) <;> rfl
  | cons new locked ih =>
    rw [foldl_cons, ih, find_merge]
    by_cases hk : φ new.name = k
    · cases l.find? (fun c => φ c.name = k) <;> simp [hk, combined, upgraded]
    · simp [hk]

theorem combined_of_getLast (h : cs.getLast? = some last) :
    ∃ c, combined cs = some c ∧ c.purl = last.purl ∧ c.version = stated cs := by
  match cs, h with
  | c :: [], h =>
    obtain rfl := some.inj h
    exact ⟨c, rfl, rfl, version_upgraded c []⟩
  | c :: new :: locked, h =>
    exact ⟨_, rfl, purl_upgraded (by rwa [getLast?_cons_cons] at h), version_upgraded c _⟩

end Merging

/-- For every name in a lockfile, the version in the package URL from the last entry is the one
stated first: by the component itself, or else by an entry. -/
def Settled (φ : Text → Text) (components locked : List SBOMComponent) : Prop :=
  ∀ new ∈ locked, ∀ last ∈ (locked.filter fun c => φ c.name = φ new.name).getLast?,
    Consistent { last with
      version := stated ((components.find? fun c => φ c.name = φ new.name).toList ++
        locked.filter fun c => φ c.name = φ new.name) }

theorem consistent_congr {last : SBOMComponent} (hpurl : c.purl = last.purl)
    (hversion : c.version = version) : Consistent c ↔ Consistent { last with version } := by
  rw [Consistent, Consistent, hpurl, hversion]

theorem consistent_iff (hcons : ∀ c ∈ components, Consistent c)
    (hnodup : (l.map fun c => φ c.name).Nodup)
    (hl : l = locked.foldl (merge fun c => φ c.name) (components.foldl (keep fun c => φ c.name) [])) :
    (∀ c ∈ l, Consistent c) ↔ Settled φ components locked := by
  have hfind : ∀ k, l.find? (fun c => φ c.name = k) =
      combined ((components.find? fun c => φ c.name = k).toList ++
        locked.filter fun c => φ c.name = k) := fun k => by
    rw [hl, find_foldl_merge, find_foldl_keep]
  have hlast : ∀ {k last}, (locked.filter fun c => φ c.name = k).getLast? = some last →
      ∃ c, l.find? (fun c => φ c.name = k) = some c ∧ c.purl = last.purl ∧ c.version =
        stated ((components.find? fun c => φ c.name = k).toList ++
          locked.filter fun c => φ c.name = k) := fun {k last} h => by
    rw [hfind]
    exact combined_of_getLast (by rw [getLast?_append, h, some_or])
  constructor
  · intro h new _ last hnew
    obtain ⟨c, hc, hpurl, hversion⟩ := hlast hnew
    exact (consistent_congr hpurl hversion).mp (h c (mem_of_find?_eq_some hc))
  · intro h c hc
    have hfound := find_of_mem hnodup hc
    cases hlocked : locked.filter fun x => φ x.name = φ c.name with
    | nil =>
      -- no entry has the name, so the component is as it was
      rw [hfind, hlocked, append_nil] at hfound
      cases hown : components.find? fun x => φ x.name = φ c.name with
      | none =>
        rw [hown] at hfound
        cases hfound
      | some c' =>
        rw [hown] at hfound
        obtain rfl := some.inj hfound
        exact hcons _ (mem_of_find?_eq_some hown)
    | cons new rest =>
      have hmem := mem_filter.mp (hlocked.symm ▸ mem_cons_self : new ∈ locked.filter _)
      have hname : φ new.name = φ c.name := of_decide_eq_true hmem.2
      obtain ⟨last, hl⟩ : ∃ last, (new :: rest).getLast? = some last :=
        ⟨_, getLast?_eq_getLast_of_ne_nil (cons_ne_nil _ _)⟩
      rw [← hlocked] at hl
      obtain ⟨c', hc', hpurl, hversion⟩ := hlast hl
      rw [hfound] at hc'
      cases hc'
      rw [consistent_congr hpurl hversion, ← hname]
      exact h new hmem.1 last (hname ▸ hl)

/-- Enrichment keeps package URLs in line with versions exactly if, for each name in a lockfile, the
last entry has the version that was stated first. -/
theorem enriched_consistent_iff {components : List SBOMComponent}
    (hcons : ∀ c ∈ components, Consistent c) :
    (∀ pubspec packageLock yarn,
      (∀ c ∈ enrichFromAndroidLockfiles pubspec packageLock yarn components, Consistent c) ↔
        Settled id components (AndroidIndex.locked pubspec packageLock yarn)) ∧
    ∀ toLower podfile packageResolved,
      (∀ c ∈ enrichFromIOSLockfiles toLower podfile packageResolved components, Consistent c) ↔
        Settled toLower components (IOSIndex.locked podfile packageResolved) := by
  refine ⟨fun pubspec packageLock yarn => ?_, fun toLower podfile packageResolved => ?_⟩
  · obtain ⟨l, hl, hnodup, hfold⟩ := AndroidIndex.enriched_eq pubspec packageLock yarn components
    rw [hl]
    exact consistent_iff (φ := id) hcons hnodup hfold
  · obtain ⟨l, hl, hnodup, hfold⟩ :=
      IOSIndex.enriched_eq toLower podfile packageResolved components
    rw [hl]
    exact consistent_iff hcons hnodup hfold

def alamofire : SBOMComponent :=
  newFrameworkComponent "Alamofire".toList "5.8.0".toList [] "Frameworks/Alamofire.framework".toList

def alamofireLock (version : String) : Option LockedVersions :=
  some ⟨"Podfile.lock".toList, [("Alamofire".toList, version.toList)]⟩

theorem same_version_consistent :
    Consistent alamofire ∧ ∀ c ∈ enrichFromIOSLockfiles (List.map Char.toLower) (alamofireLock "5.8.0")
      none [alamofire], Consistent c := by
  have hown : Consistent alamofire := by decide +kernel
  refine ⟨hown, ((enriched_consistent_iff fun c hc => ?_).2 _ _ _).mpr ?_⟩
  · rwa [mem_singleton.mp hc]
  · rw [Settled]
    decide +kernel

/-- The embedded framework is older than the Podfile.lock says: its vulnerabilities are then looked
up for the version of the lockfile. -/
theorem locked_version_in_purl :
    Consistent alamofire ∧
      (enrichFromIOSLockfiles (List.map Char.toLower) (alamofireLock "5.9.0") none [alamofire]).map
          (fun c => (c.version, c.purl)) =
        [("5.8.0".toList, "pkg:cocoapods/Alamofire@5.9.0".toList)] ∧
      ¬ ∀ c ∈ enrichFromIOSLockfiles (List.map Char.toLower) (alamofireLock "5.9.0") none [alamofire],
        Consistent c := by decide +kernel

end Morf.Lockfile
