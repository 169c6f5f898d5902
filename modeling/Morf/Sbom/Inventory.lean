import Mathlib.Data.Char
import Mathlib.Data.List.Count
import Mathlib.Data.List.Lex
import Morf.Ios.Analysis
import Morf.Lib.Distinct
import Morf.Sbom.Components

/-! `CollectSBOMComponents` of `apk/artifacts.go`, `BuildSBOMComponents` of `ios/analysis.go` and
the CycloneDX document of `utils/export.go`: the inventory of an unpacked app and the references
in it. -/

namespace Morf.Sbom

open Morf.Lib
open Morf.Ios (Bytes Disk Path UnpackedIPA FrameworkInfo hasSuffix trimSuffix base
  collectDirsWithSuffix collectFilesWithSuffix enumerateFrameworks frameworkBinary)
open List Function Option List Prod

/-- The configuration of Firebase as the decoders of JSON and plists read it. -/
structure FirebaseConfig where
  projectID : Text
  sdks : List Text

section Android

abbrev GoogleServices := Bytes → Option FirebaseConfig

variable (services : GoogleServices) (d : Disk) (src : Path)

def soFiles : List (Text × Text) :=
  let libRoot := src ++ ["lib".toList]
  ((d.readDir libRoot).getD []).flatMap fun abi =>
    if abi.2 then
      ((d.readDir (libRoot ++ [abi.1])).getD []).filterMap fun so =>
        if so.2 || !hasSuffix so.1 ".so" then none else some (so.1, abi.1)
    else []

def nativeLibNames : List (Text × List Text) :=
  let files := soFiles d src
  ((Distinct.firsts id (files.map fst)).insertionSort (· ≤ ·)).map fun name =>
    (name, ((files.filter (·.1 = name)).map snd).insertionSort (· ≤ ·))

def enumerateNativeLibs : List SBOMComponent :=
  (nativeLibNames d src).map fun lib => newNativeLibComponent lib.1 lib.2

def occurrencesFor (lib : Text × List Text) : List Text :=
  lib.2.map fun abi => "lib/".toList ++ abi ++ '/' :: lib.1

def evidence (libNames : List (Text × List Text)) (names : List String) : List Text :=
  names.flatMap fun n => (libNames.filter (·.1 = n.toList)).flatMap occurrencesFor

def isXamarin (name : Text) : Bool :=
  name = "libmonodroid.so".toList || "libmonosgen".toList.isPrefixOf name

def runtimeComponent (name : String) (evidencePaths : List Text) : Option SBOMComponent :=
  if evidencePaths = [] then none else some (newRuntimeComponent name.toList evidencePaths)

def classifyRuntime (libNames : List (Text × List Text)) (hasRNBundle : Bool) :
    List SBOMComponent :=
  let flutter := evidence libNames ["libflutter.so", "libapp.so"]
  let reactNative := evidence libNames ["libhermes.so", "libjscexecutor.so", "libreactnativejni.so"]
    ++ if hasRNBundle then ["assets/index.android.bundle".toList] else []
  let xamarin := (libNames.filter fun lib => isXamarin lib.1).flatMap occurrencesFor
  (runtimeComponent "Flutter" flutter).toList ++ (runtimeComponent "React Native" reactNative).toList
    ++ (runtimeComponent "Xamarin/.NET" (xamarin.insertionSort (· ≤ ·))).toList

def hasReactNativeBundle : Bool :=
  d.fileExists (src ++ ["assets".toList, "index.android.bundle".toList])

def googleServicesSearchPaths : List (List String) :=
  [["unknown", "google-services.json"], ["res", "raw", "google-services.json"],
    ["google-services.json"]]

def detectFirebase : Option SBOMComponent :=
  googleServicesSearchPaths.findSome? fun path => do
    let data ← d.read (src ++ path.map String.toList)
    let cfg ← services data
    guard (cfg.projectID ≠ [])
    return newFirebaseComponent cfg.projectID cfg.sdks .android
      (['/'].intercalate (path.map String.toList))

def collectSBOMComponents : List SBOMComponent :=
  enumerateNativeLibs d src
    ++ classifyRuntime (nativeLibNames d src) (hasReactNativeBundle d src)
    ++ (detectFirebase services d src).toList

end Android

section Ios

/-- The decoders that the inventory of a bundle uses: the version and the identifier of an
`Info.plist`, the Firebase plist, and the install names in each image of a Mach-O file. -/
structure BundleTools extends Ios.Tools where
  bundleVersion : Bytes → Option (Text × Text)
  googleServiceInfo : Bytes → Option FirebaseConfig
  importedLibraries : Bytes → Option (List (List Text))

variable (T : BundleTools) (d : Disk)

def fillFrameworkVersion (path : Path) : Text × Text :=
  ((d.read (path ++ ["Info.plist".toList])).bind T.bundleVersion).getD ([], [])

def pathBase (p : Text) : Text :=
  if p = [] then ['.']
  else
    let name := Text.afterLast '/' (p.rdropWhile (· = '/'))
    if name = [] then ['/'] else name

def trimPrefix (pre s : Text) : Text := (cutPrefix pre s).getD s

def beforeFirst (sub : Text) : Text → Option Text
  | [] => if sub.isPrefixOf [] then some [] else none
  | x :: xs => if sub.isPrefixOf (x :: xs) then some [] else (beforeFirst sub xs).map (x :: ·)

def dylibBaseName (installName : Text) : Text :=
  let p := ["@rpath/", "@loader_path/", "@executable_path/"].foldl
    (fun p pre => trimPrefix pre.toList p) installName
  pathBase ((beforeFirst ".framework/".toList p).getD p)

def systemDylibPrefixes : List String := ["/System/", "/usr/lib/", "/Library/Frameworks/"]

def isSystemDylib (installName : Text) : Bool :=
  (systemDylibPrefixes.any fun pre => pre.toList.isPrefixOf installName) ||
    "libswift".toList.isPrefixOf (dylibBaseName installName)

structure ImportedDylib where
  installName : Text
  name : Text
  deriving DecidableEq

def extractImportedDylibs (data : Bytes) : Option (List ImportedDylib) :=
  (T.importedLibraries data).map fun images =>
    Distinct.firsts ImportedDylib.name (images.flatten.filterMap fun installName =>
      if installName = [] || isSystemDylib installName then none
      else some ⟨installName, dylibBaseName installName⟩)

def importedLibraryComponents (up : UnpackedIPA) (covered : List Text) : List SBOMComponent :=
  let binaries := up.mainBinaryPath.toList
    ++ (up.frameworks.map frameworkBinary).filter d.fileExists
  let imports := binaries.flatMap fun bin =>
    ((d.read bin).bind (extractImportedDylibs T)).getD []
  (Distinct.firstsFrom ImportedDylib.name covered imports).map fun imp =>
    newImportedLibraryComponent imp.name ("LC_LOAD_DYLIB:".toList ++ imp.installName)

def firebaseComponent (appBundlePath : Path) : Option SBOMComponent := do
  let plistPath := appBundlePath ++ ["GoogleService-Info.plist".toList]
  let data ← d.read plistPath
  let fc ← T.googleServiceInfo data
  return newFirebaseComponent fc.projectID fc.sdks .ios (Path.rooted plistPath)

def embeddedComponent (fw : FrameworkInfo) : SBOMComponent × Text :=
  if hasSuffix fw.name ".framework" then
    let name := trimSuffix fw.name ".framework"
    let (shortVersion, bundleID) := fillFrameworkVersion T d fw.path
    (newFrameworkComponent name shortVersion bundleID (Path.rooted fw.path), name)
  else (newDylibComponent fw.name (Path.rooted fw.path), fw.name)

def buildSBOMComponents (up : UnpackedIPA) (fws : List FrameworkInfo) : List SBOMComponent :=
  let embedded := fws.map (embeddedComponent T d)
  embedded.map fst
    ++ importedLibraryComponents T d up (embedded.map snd)
    ++ (firebaseComponent T d up.appBundlePath).toList

def bundleComponents (appBundle : Path) : List SBOMComponent :=
  let up := Ios.unpacked T.toTools d appBundle
  buildSBOMComponents T d up (enumerateFrameworks d up)

end Ios

inductive BomComponent
  | component (c : SBOMComponent)
  | platform (lib : Text)

def BomComponent.bomRef : BomComponent → String
  | .component c => String.ofList c.bomRef
  | .platform lib => "platform:" ++ String.ofList lib

structure BomVulnerability where
  id : String
  affects : String

structure Bom where
  components : List BomComponent
  vulnerabilities : List BomVulnerability

def cycloneDXVulnerabilities (vulns : List OSVVulnerability) : List BomVulnerability :=
  vulns.map fun v => ⟨v.id, v.affectedBomRef⟩

def exportCycloneDX (sbomComponents : List SBOMComponent) (usesLibrary : List Text)
    (vulns : List OSVVulnerability) : Bom :=
  { components := if sbomComponents = [] then (usesLibrary.filter (· ≠ [])).map .platform
      else sbomComponents.map .component
    vulnerabilities := cycloneDXVulnerabilities vulns }

/-- Whatever the enrichment returns, every reference of the exported document names one of its
components. -/
def AffectsOne (components : List SBOMComponent) : Prop :=
  ∀ usesLibrary respond fetch s r,
    (enrichComponents (components.map SBOMComponent.queried) respond fetch).Reach Machine.anyStep
      (enrichComponents (components.map SBOMComponent.queried) respond fetch).init s →
    s.result = some r →
    ∀ v ∈ (exportCycloneDX components usesLibrary (r.map Found.vuln)).vulnerabilities,
      ((exportCycloneDX components usesLibrary (r.map Found.vuln)).components.map
        BomComponent.bomRef).count v.affects = 1

theorem mem_pendingIDs (hp : p ∈ pendingIDs components respond) :
    ∃ c ∈ components, purlToOSV c.purl ≠ none ∧ p.1 = c.bomRef := by
  unfold pendingIDs at hp
  dsimp only at hp
  split at hp
  · cases hp
  · have href := (of_mem_zip (mem_filter.mp hp).1).1
    obtain ⟨w, hw, hbom⟩ := mem_map.mp href
    obtain ⟨c, hc, hquery⟩ := mem_filterMap.mp hw
    obtain ⟨q, hq, rfl⟩ := map_eq_some_iff.mp hquery
    exact ⟨c, hc, by simp [hq], hbom.symm⟩

theorem affected_of_returned (hs : (enrichComponents components respond fetch).Reach Machine.anyStep
      (enrichComponents components respond fetch).init s) (hr : s.result = some r) (hf : f ∈ r) :
    ∃ c ∈ components, purlToOSV c.purl ≠ none ∧ f.vuln.affectedBomRef = c.bomRef := by
  have hanswer := (FanOut.returned_perm hs hr).mem_iff.mp hf
  obtain ⟨_, hmem, rfl⟩ := mem_filterMap.mp hanswer
  obtain ⟨k, hk, htask⟩ := mem_mapIdx.mp hmem
  obtain ⟨v, -, rfl⟩ := map_eq_some_iff.mp htask
  obtain ⟨p, hp, hid⟩ := mem_flatMap.mp (getElem_mem hk)
  obtain ⟨id, -, ht⟩ := mem_map.mp hid
  obtain ⟨c, hc, hquery, hbom⟩ := mem_pendingIDs hp
  exact ⟨c, hc, hquery, (congrArg fst ht).symm.trans hbom⟩

theorem affectsOne_of_count (h : ∀ c ∈ components, purlToOSV c.purl ≠ none →
      (components.map SBOMComponent.bomRef).count c.bomRef = 1) : AffectsOne components := by
  intro usesLibrary respond fetch s r hs hr v hv
  obtain ⟨_, hvuln, rfl⟩ := mem_map.mp hv
  obtain ⟨f, hf, rfl⟩ := mem_map.mp hvuln
  obtain ⟨q, hq, hquery, hbom⟩ := affected_of_returned hs hr hf
  obtain ⟨c, hc, rfl⟩ := mem_map.mp hq
  have hne : components ≠ [] := ne_nil_of_mem hc
  have hrefs : (exportCycloneDX components usesLibrary (r.map Found.vuln)).components.map
      BomComponent.bomRef = (components.map SBOMComponent.bomRef).map String.ofList := by
    rw [exportCycloneDX, if_neg hne, List.map_map, List.map_map]
    rfl
  rw [hrefs, hbom]
  exact (count_map_of_injective _ _ (fun _ _ h => String.ofList_injective h) _).trans
    (h c hc hquery)

def tags : List String := ["framework", "dylib", "import", "firebase", "native", "runtime"]

theorem bomRefOf_injective (tag : String) : Injective (bomRefOf tag) := fun _ _ h =>
  (cons.inj (append_cancel_left h)).2

theorem eq_of_bomRefOf_eq (h : tag ∈ tags) (h' : tag' ∈ tags)
    (heq : bomRefOf tag name = bomRefOf tag' name') : tag = tag' := by
  have hcolon : ∀ tag ∈ tags, ':' ∉ tag.toList := by decide
  exact String.toList_injective (Text.eq_of_append_cons (hcolon tag h) (hcolon tag' h') heq)

def taggedRefs (groups : List (String × List Text)) : List Text :=
  groups.flatMap fun g => g.2.map (bomRefOf g.1)

theorem mem_taggedRefs :
    ref ∈ taggedRefs groups ↔ ∃ g ∈ groups, ∃ name ∈ g.2, bomRefOf g.1 name = ref := by
  simp only [taggedRefs, mem_flatMap, List.mem_map]

theorem count_taggedRefs (htags : groups.map fst ⊆ tags)
    (hdistinct : (groups.map fst).Nodup) (hg : g ∈ groups) (name : Text) :
    (taggedRefs groups).count (bomRefOf g.1 name) = g.2.count name := by
  induction groups with
  | nil => cases hg
  | cons g₀ gs ih =>
    rw [map_cons, cons_subset] at htags
    rw [map_cons, nodup_cons] at hdistinct
    have hcons : taggedRefs (g₀ :: gs) = g₀.2.map (bomRefOf g₀.1) ++ taggedRefs gs := rfl
    rw [hcons, count_append]
    rcases mem_cons.mp hg with rfl | hg
    · have hother : bomRefOf g.1 name ∉ taggedRefs gs := fun hmem => by
        obtain ⟨g', hg', name', -, href⟩ := mem_taggedRefs.mp hmem
        have hmem' : g'.1 ∈ gs.map fst := mem_map_of_mem hg'
        exact hdistinct.1 (eq_of_bomRefOf_eq (htags.2 hmem') htags.1 href ▸ hmem')
      rw [count_eq_zero_of_not_mem hother, Nat.add_zero]
      exact count_map_of_injective _ _ (bomRefOf_injective g.1) name
    · have hmem : g.1 ∈ gs.map fst := mem_map_of_mem hg
      have hother : bomRefOf g.1 name ∉ g₀.2.map (bomRefOf g₀.1) := fun href => by
        obtain ⟨name', -, href⟩ := mem_map.mp href
        exact hdistinct.1 (eq_of_bomRefOf_eq htags.1 (htags.2 hmem) href ▸ hmem)
      rw [count_eq_zero_of_not_mem hother, Nat.zero_add, ih htags.2 hdistinct.2 hg]

theorem nodup_taggedRefs (htags : groups.map fst ⊆ tags)
    (hdistinct : (groups.map fst).Nodup) :
    (taggedRefs groups).Nodup ↔ ∀ g ∈ groups, g.2.Nodup := by
  simp only [nodup_iff_count_le_one]
  constructor
  · intro h g hg name
    rw [← count_taggedRefs htags hdistinct hg name]
    exact h _
  · intro h ref
    by_cases href : ref ∈ taggedRefs groups
    · obtain ⟨g, hg, name, -, rfl⟩ := mem_taggedRefs.mp href
      rw [count_taggedRefs htags hdistinct hg name]
      exact h g hg name
    · rw [count_eq_zero_of_not_mem href]
      exact Nat.zero_le 1

theorem mem_collectDirsWithSuffix (h : fw ∈ collectDirsWithSuffix d dir suffix) :
    ∃ name, fw = dir ++ [name] ∧ hasSuffix name suffix = true := by
  obtain ⟨e, -, he⟩ := mem_filterMap.mp h
  split at he
  · rename_i hsuffix
    exact ⟨e.1, (some.inj he).symm, (Bool.and_eq_true_iff.mp hsuffix).2⟩
  · cases he

theorem nodup_collectDirsWithSuffix (hd : (d.map fst).Nodup) (dir : Path) (suffix : String) :
    (collectDirsWithSuffix d dir suffix).Nodup := by
  unfold collectDirsWithSuffix Disk.readDir
  split
  · rw [getD_some, filterMap_filterMap]
    refine pairwise_filterMap.mpr ((pairwise_map.mp hd).imp fun {e e'} hne p hp p' hp' => ?_)
    -- what is found for an entry of the disk is its own path
    have hself : ∀ {e : Path × Option Bytes} {p : Path},
        ((if e.1.dropLast = dir then e.1.getLast?.map (·, e.2.isNone) else none).bind fun e =>
          if e.2 && hasSuffix e.1 suffix then some (dir ++ [e.1]) else none) = some p → p = e.1 := by
      intro e p hp
      obtain ⟨x, hx, hp⟩ := bind_eq_some_iff.mp hp
      split at hx
      · rename_i hdir
        obtain ⟨name, hname, rfl⟩ := map_eq_some_iff.mp hx
        split at hp
        · rw [← some.inj hp, ← hdir]
          exact dropLast_append_getLast? _ hname
        · cases hp
      · cases hx
    rw [hself hp, hself hp']
    exact hne
  · exact nodup_nil

theorem eq_of_hasSuffix {s : Text} (h : hasSuffix s suffix = true) :
    s = trimSuffix s suffix ++ suffix.toList := by
  obtain ⟨t, rfl⟩ := isSuffixOf_iff_suffix.mp h
  rw [trimSuffix, if_pos h, length_append, String.length_toList, Nat.add_sub_cancel,
    take_left]

theorem nodup_frameworkNames (hd : (d.map fst).Nodup) (dir : Path) :
    ((collectDirsWithSuffix d dir ".framework").map fun fw =>
      trimSuffix (base fw) ".framework").Nodup := by
  refine (nodup_collectDirsWithSuffix hd dir ".framework").map_on fun fw hfw fw' hfw' h => ?_
  obtain ⟨name, rfl, hname⟩ := mem_collectDirsWithSuffix hfw
  obtain ⟨name', rfl, hname'⟩ := mem_collectDirsWithSuffix hfw'
  have hbase : ∀ n : Text, base (dir ++ [n]) = n := fun n => by simp [base]
  rw [hbase, hbase] at h
  rw [eq_of_hasSuffix hname, eq_of_hasSuffix hname', h]

theorem not_framework_of_dylib {s : Text} (h : hasSuffix s ".dylib" = true) :
    ¬ hasSuffix s ".framework" = true := by
  intro h'
  have hlast : s.getLast? = some 'b' := by
    rw [eq_of_hasSuffix h, getLast?_append]
    rfl
  have hlast' : s.getLast? = some 'k' := by
    rw [eq_of_hasSuffix h', getLast?_append]
    rfl
  exact absurd (hlast.symm.trans hlast') (by decide)

section Bundle

variable (T : BundleTools) (d : Disk) (bundle : Path)

def frameworkNames : List Text :=
  (collectDirsWithSuffix d (bundle ++ ["Frameworks".toList]) ".framework").map fun fw =>
    trimSuffix (base fw) ".framework"

def dylibNames : List Text := (collectFilesWithSuffix d bundle ".dylib").map base

def frameworkComponent (fw : Path) : SBOMComponent :=
  newFrameworkComponent (trimSuffix (base fw) ".framework") (fillFrameworkVersion T d fw).1
    (fillFrameworkVersion T d fw).2 (Path.rooted fw)

theorem mem_collectFilesWithSuffix (h : p ∈ collectFilesWithSuffix d bundle suffix) :
    hasSuffix (base p) suffix = true := by
  obtain ⟨e, he, rfl⟩ := mem_map.mp h
  exact (Bool.and_eq_true_iff.mp (mem_filter.mp he).2).2

theorem embedded_eq : ((enumerateFrameworks d (Ios.unpacked T.toTools d bundle)).map
    (embeddedComponent T d)).map fst =
      (collectDirsWithSuffix d (bundle ++ ["Frameworks".toList]) ".framework").map
        (frameworkComponent T d) ++
      (collectFilesWithSuffix d bundle ".dylib").map fun dl =>
        newDylibComponent (base dl) (Path.rooted dl) := by
  rw [enumerateFrameworks, map_append, map_append]
  simp only [List.map_map]
  congr 1
  · refine map_congr_left fun fw hfw => ?_
    have hsuffix : hasSuffix (base fw) ".framework" = true := by
      obtain ⟨name, rfl, hname⟩ := mem_collectDirsWithSuffix hfw
      simpa [base] using hname
    rw [comp_apply, comp_apply, embeddedComponent, if_pos hsuffix]
    rfl
  · refine map_congr_left fun dl hdl => ?_
    have hsuffix := not_framework_of_dylib (mem_collectFilesWithSuffix d bundle hdl)
    rw [comp_apply, comp_apply, embeddedComponent, if_neg hsuffix]

theorem firebaseComponent_eq : ∃ firebase : Option (FirebaseConfig × Text),
    firebaseComponent T d bundle = firebase.map fun f =>
      newFirebaseComponent f.1.projectID f.1.sdks .ios f.2 := by
  rw [firebaseComponent]
  cases d.read (bundle ++ ["GoogleService-Info.plist".toList]) with
  | none => exact ⟨none, rfl⟩
  | some data =>
    cases hfc : T.googleServiceInfo data with
    | none => exact ⟨none, by simp [hfc]⟩
    | some fc => exact ⟨some (fc, _), by simp [hfc]; rfl⟩

def importComponent (imp : ImportedDylib) : SBOMComponent :=
  newImportedLibraryComponent imp.name ("LC_LOAD_DYLIB:".toList ++ imp.installName)

theorem bundleComponents_eq : ∃ (imports : List ImportedDylib)
    (firebase : Option (FirebaseConfig × Text)), (imports.map ImportedDylib.name).Nodup ∧
    bundleComponents T d bundle =
      (collectDirsWithSuffix d (bundle ++ ["Frameworks".toList]) ".framework").map
        (frameworkComponent T d) ++
      ((collectFilesWithSuffix d bundle ".dylib").map fun dl =>
        newDylibComponent (base dl) (Path.rooted dl)) ++
      imports.map importComponent ++
      (firebase.map fun f => newFirebaseComponent f.1.projectID f.1.sdks .ios f.2).toList := by
  obtain ⟨firebase, hfirebase⟩ := firebaseComponent_eq T d bundle
  rw [bundleComponents, buildSBOMComponents, embedded_eq]
  exact ⟨_, firebase, Distinct.nodup_map_firstsFrom _ _,
    congrArg (fun o => _ ++ toList o) hfirebase⟩

theorem bundle_refs : ∃ imports firebase : List Text, imports.Nodup ∧ firebase.Nodup ∧
    (bundleComponents T d bundle).map SBOMComponent.bomRef =
      taggedRefs [("framework", frameworkNames d bundle), ("dylib", dylibNames d bundle),
        ("import", imports), ("firebase", firebase)] := by
  obtain ⟨imports, firebase, himports, heq⟩ := bundleComponents_eq T d bundle
  refine ⟨imports.map ImportedDylib.name,
    (firebase.map fun f => firebaseRef f.1.projectID).toList, himports, ?_, ?_⟩
  · cases firebase <;> simp
  · rw [heq, taggedRefs, frameworkNames, dylibNames]
    simp only [map_append, List.map_map, flatMap_cons, flatMap_nil, append_nil,
      append_assoc]
    cases firebase <;> rfl

theorem framework_of_query (hc : c ∈ bundleComponents T d bundle) (hquery : purlToOSV c.purl ≠ none) :
    ∃ name ∈ frameworkNames d bundle, c.bomRef = bomRefOf "framework" name := by
  obtain ⟨imports, firebase, -, heq⟩ := bundleComponents_eq T d bundle
  rw [heq, mem_append, mem_append, mem_append] at hc
  rcases hc with ((hc | hc) | hc) | hc
  · obtain ⟨fw, hfw, rfl⟩ := mem_map.mp hc
    exact ⟨_, mem_map_of_mem hfw, rfl⟩
  · obtain ⟨dl, -, rfl⟩ := mem_map.mp hc
    exact absurd (purlToOSV_generic _ _) hquery
  · obtain ⟨imp, -, rfl⟩ := mem_map.mp hc
    exact absurd (purlToOSV_imported _ _) hquery
  · obtain ⟨f, -, rfl⟩ := map_eq_some_iff.mp (mem_toList.mp hc)
    exact absurd (purlToOSV_firebase _ _ _ _) hquery

end Bundle

section Package

variable (services : GoogleServices) (d : Disk) (src : Path)

theorem detectFirebase_eq : ∃ firebase : Option (FirebaseConfig × Text),
    detectFirebase services d src = firebase.map fun f =>
      newFirebaseComponent f.1.projectID f.1.sdks .android f.2 := by
  rw [detectFirebase]
  cases hfound : googleServicesSearchPaths.findSome? _ with
  | none => exact ⟨none, rfl⟩
  | some c =>
    obtain ⟨path, -, hc⟩ := exists_of_findSome?_eq_some hfound
    obtain ⟨data, -, hc⟩ := bind_eq_some_iff.mp hc
    obtain ⟨cfg, -, hc⟩ := bind_eq_some_iff.mp hc
    obtain ⟨-, -, hc⟩ := bind_eq_some_iff.mp hc
    exact ⟨some (cfg, _), (congrArg some (some.inj hc)).symm⟩

theorem runtimeComponent_refs (name : String) (evidencePaths : List Text) :
    ∃ names : List Text, names.Sublist [name.toList] ∧
      (runtimeComponent name evidencePaths).toList.map SBOMComponent.bomRef =
        names.map (bomRefOf "runtime") := by
  rw [runtimeComponent]
  split
  · exact ⟨[], nil_sublist _, rfl⟩
  · exact ⟨[name.toList], Sublist.refl _, rfl⟩

theorem classifyRuntime_refs (libNames : List (Text × List Text)) (hasRNBundle : Bool) :
    ∃ names : List Text, names.Nodup ∧
      (classifyRuntime libNames hasRNBundle).map SBOMComponent.bomRef =
        names.map (bomRefOf "runtime") := by
  rw [classifyRuntime, map_append, map_append]
  obtain ⟨flutter, hflutter, hf⟩ := runtimeComponent_refs "Flutter" _
  obtain ⟨reactNative, hreactNative, hr⟩ := runtimeComponent_refs "React Native" _
  obtain ⟨xamarin, hxamarin, hx⟩ := runtimeComponent_refs "Xamarin/.NET" _
  rw [hf, hr, hx, ← map_append, ← map_append]
  have hnames : ["Flutter".toList, "React Native".toList, "Xamarin/.NET".toList].Nodup := by decide
  exact ⟨_, hnames.sublist ((hflutter.append hreactNative).append hxamarin), rfl⟩

theorem nodup_nativeLibNames : ((nativeLibNames d src).map fst).Nodup := by
  have hfirsts := @Distinct.nodup_map_firstsFrom _ _ _ id [] ((soFiles d src).map fst)
  rw [List.map_id] at hfirsts
  rw [nativeLibNames, List.map_map]
  change ((_ : List Text).map id).Nodup
  rw [List.map_id]
  exact (perm_insertionSort _ _).nodup_iff.mpr hfirsts

theorem package_refs : ∃ natives runtimes firebase : List Text,
    natives.Nodup ∧ runtimes.Nodup ∧ firebase.Nodup ∧
    (collectSBOMComponents services d src).map SBOMComponent.bomRef =
      taggedRefs [("native", natives), ("runtime", runtimes), ("firebase", firebase)] := by
  obtain ⟨runtimes, hruntimes, hrefs⟩ :=
    classifyRuntime_refs (nativeLibNames d src) (hasReactNativeBundle d src)
  obtain ⟨firebase, hfirebase⟩ := detectFirebase_eq services d src
  refine ⟨_, runtimes, (firebase.map fun f => firebaseRef f.1.projectID).toList,
    nodup_nativeLibNames d src, hruntimes, ?_, ?_⟩
  · cases firebase <;> simp
  · rw [collectSBOMComponents, map_append, map_append, hrefs, hfirebase,
      enumerateNativeLibs, taggedRefs]
    simp only [List.map_map, flatMap_cons, flatMap_nil, append_nil,
      append_assoc]
    cases firebase <;> rfl

theorem purl_runtimeComponent (hc : c ∈ (runtimeComponent name evidencePaths).toList) :
    c.purl = genericPurl name.toList [] := by
  rw [runtimeComponent] at hc
  split at hc
  · cases hc
  · rw [mem_singleton.mp hc, newRuntimeComponent]

theorem no_query_of_package (hc : c ∈ collectSBOMComponents services d src) :
    purlToOSV c.purl = none := by
  rw [collectSBOMComponents, mem_append, mem_append] at hc
  rcases hc with (hc | hc) | hc
  · obtain ⟨lib, -, rfl⟩ := mem_map.mp hc
    exact purlToOSV_generic _ _
  · rw [classifyRuntime, mem_append, mem_append] at hc
    rcases hc with (hc | hc) | hc
    all_goals
      rw [purl_runtimeComponent hc]
      exact purlToOSV_generic _ _
  · obtain ⟨firebase, hfirebase⟩ := detectFirebase_eq services d src
    rw [hfirebase] at hc
    obtain ⟨f, -, rfl⟩ := map_eq_some_iff.mp (mem_toList.mp hc)
    exact purlToOSV_firebase _ _ _ _

end Package

/-- The references of a package are distinct, and those of a bundle exactly if no two of its
libraries have one name; a vulnerability always refers to one component. -/
theorem sbom_references_iff (services : GoogleServices) (T : BundleTools) {d : Disk}
    (hd : (d.map fst).Nodup) (src bundle : Path) :
    (((collectSBOMComponents services d src).map SBOMComponent.bomRef).Nodup ∧
      AffectsOne (collectSBOMComponents services d src)) ∧
    (((bundleComponents T d bundle).map SBOMComponent.bomRef).Nodup ↔
      ((collectFilesWithSuffix d bundle ".dylib").map base).Nodup) ∧
    AffectsOne (bundleComponents T d bundle) := by
  obtain ⟨natives, runtimes, firebase, hnatives, hruntimes, hfirebase, hpackage⟩ :=
    package_refs services d src
  obtain ⟨imports, firebase', himports, hfirebase', hbundle⟩ := bundle_refs T d bundle
  have hframeworks : (frameworkNames d bundle).Nodup := nodup_frameworkNames hd _
  refine ⟨⟨?_, ?_⟩, ?_, ?_⟩
  · rw [hpackage, nodup_taggedRefs (by simp [tags]) (by simp)]
    simp [hnatives, hruntimes, hfirebase]
  · exact affectsOne_of_count fun c hc hquery =>
      absurd (no_query_of_package services d src hc) hquery
  · rw [hbundle, nodup_taggedRefs (by simp [tags]) (by simp)]
    simp [hframeworks, himports, hfirebase', dylibNames]
  · refine affectsOne_of_count fun c hc hquery => ?_
    obtain ⟨name, hname, href⟩ := framework_of_query T d bundle hc hquery
    rw [hbundle, href, count_taggedRefs (g := ("framework", frameworkNames d bundle))
      (by simp [tags]) (by simp) mem_cons_self name]
    exact count_eq_one_of_mem hframeworks hname

def plainBundleTools : BundleTools :=
  { Ios.plainTools with
    bundleVersion := fun _ => none
    googleServiceInfo := fun _ => none
    importedLibraries := fun _ => none }

def codecFiles (nested : List (List String × Option String)) : Disk :=
  Ios.unzipped ([(["libcodec.dylib"], some "a")] ++ nested)

theorem single_library_distinct :
    ((bundleComponents plainBundleTools (codecFiles []) Ios.shopBundle).map
      SBOMComponent.bomRef).Nodup :=
  (sbom_references_iff (fun _ => none) plainBundleTools (d := codecFiles []) (by decide) []
    Ios.shopBundle).2.1.mpr (by decide)

/-- An extension brings its own copy of a library of the app. -/
theorem nested_library_repeated :
    (bundleComponents plainBundleTools (codecFiles [(["PlugIns"], none),
        (["PlugIns", "Share.appex"], none), (["PlugIns", "Share.appex", "libcodec.dylib"], some "b")])
      Ios.shopBundle).map SBOMComponent.bomRef =
        ["dylib:libcodec.dylib".toList, "dylib:libcodec.dylib".toList] := by
  decide +kernel

end Morf.Sbom
