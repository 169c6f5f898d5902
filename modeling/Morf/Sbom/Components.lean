import Mathlib.Data.List.Nodup
import Mathlib.Data.Option.Basic
import Morf.Lib.FanOut
import Morf.Lib.Text

/-! `EnrichComponents` of `osv/osv.go`: the vulnerabilities of the components of an SBOM. -/

namespace Morf.Sbom

open Morf.Lib

structure Component where
  purl : List Char
  bomRef : String

structure OSVQuery where
  ecosystem : String
  name : List Char
  version : List Char
  deriving DecidableEq

def cutPrefix (pre s : List Char) : Option (List Char) :=
  if pre.isPrefixOf s then some (s.drop pre.length) else none

def splitVersion (s : List Char) : List Char × List Char :=
  if '@' ∈ s then
    let version := Text.afterLast '@' s
    (s.take (s.length - version.length - 1), version)
  else (s, [])

def purlToOSV (purl : List Char) : Option OSVQuery := do
  let rest ← cutPrefix "pkg:".toList purl
  let (purlType, nameAndVer) ← Text.cut '/' rest
  let (name, version) := splitVersion nameAndVer
  guard (version ≠ [])
  if purlType = "maven".toList then
    let (group, artifact) ← Text.cut '/' name
    guard (group ≠ [] ∧ artifact ≠ [])
    return ⟨"Maven", group ++ ':' :: artifact, version⟩
  else
    guard (name ≠ [])
    if purlType = "pub".toList then return ⟨"Pub", name, version⟩
    else if purlType = "npm".toList then return ⟨"npm", name, version⟩
    else if purlType = "swift".toList then return ⟨"SwiftURL", "https://".toList ++ name, version⟩
    else none

abbrev Respond := List OSVQuery → Except String (List (List String))

def queryBatch (respond : Respond) (queries : List OSVQuery) : Except String (List (List String)) :=
  (respond queries).map fun results =>
    (List.range queries.length).map fun i => (results[i]?.getD []).filter (· ≠ "")

def workItems (components : List Component) : List (Component × OSVQuery) :=
  components.filterMap fun c => (purlToOSV c.purl).map fun q => (c, q)

def pendingIDs (components : List Component) (respond : Respond) : List (String × List String) :=
  let work := workItems components
  match queryBatch respond (work.map Prod.snd) with
  | .error _ => []
  | .ok ids => ((work.map fun w => w.1.bomRef).zip ids).filter (·.2 ≠ [])

structure OSVVulnerability where
  id : String
  affectedBomRef : String := ""
  deriving DecidableEq

structure Found where
  requested : String
  vuln : OSVVulnerability
  deriving DecidableEq

def Found.pair (f : Found) : String × String := (f.requested, f.vuln.affectedBomRef)

/-- `fetch k id` is the outcome of the request for `id` that task `k` makes. -/
abbrev Fetch := Nat → String → Option OSVVulnerability

def tasks (components : List Component) (respond : Respond) : List (String × String) :=
  (pendingIDs components respond).flatMap fun p => p.2.map fun id => (p.1, id)

def answers (components : List Component) (respond : Respond) (fetch : Fetch) :
    List (Option Found) :=
  (tasks components respond).mapIdx fun k t =>
    (fetch k t.2).map fun v => ⟨t.2, { v with affectedBomRef := t.1 }⟩

def osvMaxConcurrency : Nat := 4

def channelCapacity (components : List Component) (respond : Respond) : Nat :=
  (pendingIDs components respond).length * 4

/-- The early returns hand back what the fan-out without tasks does. -/
def enrichComponents (components : List Component) (respond : Respond) (fetch : Fetch) :
    Machine (FanOut.State Found) FanOut.Label :=
  FanOut.machine (channelCapacity components respond) osvMaxConcurrency
    (answers components respond fetch)

def succeeded (components : List Component) (respond : Respond) (fetch : Fetch) : List Found :=
  (answers components respond fetch).filterMap id

section Enrichment

variable (components : List Component) (respond : Respond) (fetch : Fetch)

/-- Some process can step in every state reached before the return. -/
def NeverStuck : Prop :=
  ∀ s, (enrichComponents components respond fetch).Reach Machine.anyStep
    (enrichComponents components respond fetch).init s → s.result = none →
    ∃ l s', (enrichComponents components respond fetch).step s l = some s'

def ReturnsEachOnce : Prop :=
  ∀ s r, (enrichComponents components respond fetch).Reach Machine.anyStep
    (enrichComponents components respond fetch).init s → s.result = some r →
    ∀ q, (r.map Found.pair).count q =
      if q ∈ (succeeded components respond fetch).map Found.pair then 1 else 0

theorem neverStuck_iff : NeverStuck components respond fetch ↔
    (succeeded components respond fetch).length ≤ channelCapacity components respond :=
  FanOut.never_stuck_iff (by decide)

theorem exists_returned
    (h : (succeeded components respond fetch).length ≤ channelCapacity components respond) :
    ∃ s r, (enrichComponents components respond fetch).Reach Machine.anyStep
      (enrichComponents components respond fetch).init s ∧ s.result = some r := by
  obtain ⟨s, hs, hstop⟩ := FanOut.exists_end (channelCapacity components respond)
    osvMaxConcurrency (answers components respond fetch)
  cases hr : s.result with
  | none =>
    obtain ⟨l, s', hl⟩ := (neverStuck_iff components respond fetch).mpr h s hs hr
    rw [show (enrichComponents components respond fetch).step s l = none from hstop l] at hl
    cases hl
  | some r => exact ⟨s, r, hs, hr⟩

theorem returnsEachOnce_of_nodup
    (h : ((succeeded components respond fetch).map Found.pair).Nodup) :
    ReturnsEachOnce components respond fetch := by
  intro s r hs hr q
  have hp := (FanOut.returned_perm hs hr).map Found.pair
  rw [hp.count_eq q]
  exact h.count

theorem nodup_of_returnsEachOnce
    (hroom : (succeeded components respond fetch).length ≤ channelCapacity components respond)
    (h : ReturnsEachOnce components respond fetch) :
    ((succeeded components respond fetch).map Found.pair).Nodup := by
  obtain ⟨s, r, hs, hr⟩ := exists_returned components respond fetch hroom
  have hp := (FanOut.returned_perm hs hr).map Found.pair
  rw [List.nodup_iff_count_le_one]
  intro q
  rw [show (succeeded components respond fetch).map Found.pair =
    ((answers components respond fetch).filterMap id).map Found.pair from rfl, ← hp.count_eq q,
    h s r hs hr q]
  split <;> omega

/-- The enrichment returns, and returns every vulnerability once, exactly if no more than four
fetches for each vulnerable component succeed and no two of them are for one id and
component. -/
theorem enrichment_complete_iff :
    NeverStuck components respond fetch ∧ ReturnsEachOnce components respond fetch ↔
      (succeeded components respond fetch).length ≤ (pendingIDs components respond).length * 4 ∧
      ((succeeded components respond fetch).map Found.pair).Nodup := by
  constructor
  · rintro ⟨hstuck, honce⟩
    have hroom := (neverStuck_iff components respond fetch).mp hstuck
    exact ⟨hroom, nodup_of_returnsEachOnce components respond fetch hroom honce⟩
  · rintro ⟨hroom, hnodup⟩
    exact ⟨(neverStuck_iff components respond fetch).mpr hroom,
      returnsEachOnce_of_nodup components respond fetch hnodup⟩

end Enrichment

def lodash : Component := ⟨"pkg:npm/lodash@4.17.4".toList, "lodash"⟩

def fetchAll : Fetch := fun _ id => some ⟨id, ""⟩

def respondWith (ids : List String) : Respond := fun _ => .ok [ids]

theorem three_ids_complete :
    NeverStuck [lodash] (respondWith ["A", "B", "C"]) fetchAll ∧
      ReturnsEachOnce [lodash] (respondWith ["A", "B", "C"]) fetchAll :=
  (enrichment_complete_iff _ _ _).mpr (by decide)

/-- With five vulnerabilities of one component the fifth goroutine waits for room in a channel
that nobody reads yet; an id that is listed twice is returned twice. -/
theorem five_ids_stuck :
    (∃ s, (enrichComponents [lodash] (respondWith ["A", "B", "C", "D", "E"]) fetchAll).Reach
        Machine.anyStep
        (enrichComponents [lodash] (respondWith ["A", "B", "C", "D", "E"]) fetchAll).init s ∧
      s.result = none ∧ ∀ l,
        (enrichComponents [lodash] (respondWith ["A", "B", "C", "D", "E"]) fetchAll).step s l =
          none) ∧
    ¬ ReturnsEachOnce [lodash] (respondWith ["A", "A"]) fetchAll := by
  constructor
  · have hlen : ¬ (succeeded [lodash] (respondWith ["A", "B", "C", "D", "E"]) fetchAll).length ≤
        channelCapacity [lodash] (respondWith ["A", "B", "C", "D", "E"]) := by decide
    have hstuck := mt (neverStuck_iff _ _ _).mp hlen
    simp only [NeverStuck, not_forall, not_exists] at hstuck
    obtain ⟨s, hs, hr, hstop⟩ := hstuck
    exact ⟨s, hs, hr, fun l => Option.eq_none_iff_forall_ne_some.mpr (hstop l)⟩
  · intro h
    exact absurd (nodup_of_returnsEachOnce _ _ _ (by decide) h) (by decide)

/-! `models/SBOMComponent.go` and `models/PurlMap.go`: the components of an inventory with their
references and package URLs.  The evidence for an identity is left out, except for the places
where a component was found. -/

open List Option

abbrev Text := List Char

inductive ComponentType
  | library
  | framework
  deriving DecidableEq

structure SBOMComponent where
  type : ComponentType
  name : Text
  version : Text := []
  bomRef : Text
  purl : Text
  group : Text := []
  occurrences : List Text := []
  deriving DecidableEq

/-- What `EnrichComponents` reads of a component. -/
def SBOMComponent.queried (c : SBOMComponent) : Component := ⟨c.purl, String.ofList c.bomRef⟩

def withVersion (purl version : Text) : Text :=
  if version = [] then purl else purl ++ '@' :: version

def genericPurl (name version : Text) : Text :=
  if name = [] then [] else withVersion ("pkg:generic/".toList ++ name) version

structure PurlEntry where
  cocoapods : String := ""
  swiftHost : String := ""
  mavenGroup : String := ""
  mavenArtifact : String := ""

def purlTable : List (String × PurlEntry) :=
  [("Alamofire", { cocoapods := "Alamofire", swiftHost := "github.com/Alamofire/Alamofire" }),
    ("AFNetworking", { cocoapods := "AFNetworking", swiftHost := "github.com/AFNetworking/AFNetworking" }),
    ("SDWebImage", { cocoapods := "SDWebImage", swiftHost := "github.com/SDWebImage/SDWebImage" }),
    ("Kingfisher", { cocoapods := "Kingfisher", swiftHost := "github.com/onevcat/Kingfisher" }),
    ("RxSwift", { cocoapods := "RxSwift", swiftHost := "github.com/ReactiveX/RxSwift" }),
    ("RxCocoa", { cocoapods := "RxCocoa", swiftHost := "github.com/ReactiveX/RxSwift" }),
    ("SnapKit", { cocoapods := "SnapKit", swiftHost := "github.com/SnapKit/SnapKit" }),
    ("Lottie", { cocoapods := "lottie-ios", swiftHost := "github.com/airbnb/lottie-ios" }),
    ("lottie-ios", { cocoapods := "lottie-ios", swiftHost := "github.com/airbnb/lottie-ios" }),
    ("Realm", { cocoapods := "Realm", swiftHost := "github.com/realm/realm-swift" }),
    ("RealmSwift", { cocoapods := "RealmSwift", swiftHost := "github.com/realm/realm-swift" }),
    ("FirebaseCore",
      { cocoapods := "FirebaseCore", swiftHost := "github.com/firebase/firebase-ios-sdk" }),
    ("FirebaseAnalytics",
      { cocoapods := "FirebaseAnalytics", swiftHost := "github.com/firebase/firebase-ios-sdk" }),
    ("FirebaseCrashlytics",
      { cocoapods := "FirebaseCrashlytics", swiftHost := "github.com/firebase/firebase-ios-sdk" }),
    ("GoogleUtilities",
      { cocoapods := "GoogleUtilities", swiftHost := "github.com/google/GoogleUtilities" }),
    ("GTMSessionFetcher",
      { cocoapods := "GTMSessionFetcher", swiftHost := "github.com/google/gtm-session-fetcher" }),
    ("FBSDKCoreKit",
      { cocoapods := "FBSDKCoreKit", swiftHost := "github.com/facebook/facebook-ios-sdk" }),
    ("Crashlytics", { cocoapods := "Crashlytics" }),
    ("Parse", { cocoapods := "Parse", swiftHost := "github.com/parse-community/Parse-SDK-iOS-OSX" }),
    ("Bolts", { cocoapods := "Bolts" }),
    ("Flurry_iOS_SDK", { cocoapods := "Flurry-iOS-SDK" }),
    ("Flurry-iOS-SDK", { cocoapods := "Flurry-iOS-SDK" }),
    ("Sentry", { cocoapods := "Sentry", swiftHost := "github.com/getsentry/sentry-cocoa" }),
    ("Nimble", { cocoapods := "Nimble", swiftHost := "github.com/Quick/Nimble" }),
    ("Quick", { cocoapods := "Quick", swiftHost := "github.com/Quick/Quick" }),
    ("Moya", { cocoapods := "Moya", swiftHost := "github.com/Moya/Moya" }),
    ("SwiftyJSON", { cocoapods := "SwiftyJSON", swiftHost := "github.com/SwiftyJSON/SwiftyJSON" }),
    ("Charts", { cocoapods := "Charts", swiftHost := "github.com/danielgindi/Charts" }),
    ("firebase-core", { mavenGroup := "com.google.firebase", mavenArtifact := "firebase-core" }),
    ("firebase-analytics",
      { mavenGroup := "com.google.firebase", mavenArtifact := "firebase-analytics" }),
    ("firebase-crashlytics",
      { mavenGroup := "com.google.firebase", mavenArtifact := "firebase-crashlytics" }),
    ("firebase-messaging",
      { mavenGroup := "com.google.firebase", mavenArtifact := "firebase-messaging" }),
    ("firebase-bom", { mavenGroup := "com.google.firebase", mavenArtifact := "firebase-bom" }),
    ("okhttp", { mavenGroup := "com.squareup.okhttp3", mavenArtifact := "okhttp" }),
    ("retrofit", { mavenGroup := "com.squareup.retrofit2", mavenArtifact := "retrofit" }),
    ("gson", { mavenGroup := "com.google.code.gson", mavenArtifact := "gson" }),
    ("glide", { mavenGroup := "com.github.bumptech.glide", mavenArtifact := "glide" })]

def bundleIDIsCocoaPods (bundleID : Text) : Bool := "org.cocoapods.".toList.isPrefixOf bundleID

def PurlEntry.coordinate (entry : PurlEntry) (bundleID : Text) : Option (Text × Text) :=
  if entry.mavenArtifact ≠ "" ∧ entry.mavenGroup ≠ "" then
    some ("pkg:maven/".toList ++ entry.mavenGroup.toList ++ '/' :: entry.mavenArtifact.toList,
      entry.mavenGroup.toList)
  else if entry.cocoapods ≠ "" ∧ (bundleIDIsCocoaPods bundleID ∨ entry.swiftHost = "") then
    some ("pkg:cocoapods/".toList ++ entry.cocoapods.toList, [])
  else if entry.swiftHost ≠ "" then some ("pkg:swift/".toList ++ entry.swiftHost.toList, [])
  else none

def purlFor (name bundleID version : Text) : Option (Text × Text) := do
  let entry ← purlTable.find? fun e => e.1.toList = name
  let (purl, group) ← entry.2.coordinate bundleID
  return (withVersion purl version, group)

def bomRefOf (tag : String) (name : Text) : Text := tag.toList ++ ':' :: name

def newFrameworkComponent (name version bundleID path : Text) : SBOMComponent :=
  let (purl, group) := (purlFor name bundleID version).getD (genericPurl name version, [])
  { type := .framework
    name
    version
    bomRef := bomRefOf "framework" name
    purl
    group
    occurrences := [path].filter (· ≠ []) }

def newDylibComponent (name path : Text) : SBOMComponent :=
  { type := .library
    name
    bomRef := bomRefOf "dylib" name
    purl := genericPurl name []
    occurrences := [path].filter (· ≠ []) }

def newNativeLibComponent (name : Text) (abis : List Text) : SBOMComponent :=
  { type := .library
    name
    bomRef := bomRefOf "native" name
    purl := genericPurl name []
    occurrences := (abis.filter (· ≠ [])).map fun abi =>
      "lib/".toList ++ abi ++ '/' :: name }

def newRuntimeComponent (name : Text) (evidencePaths : List Text) : SBOMComponent :=
  { type := .framework
    name
    bomRef := bomRefOf "runtime" name
    purl := genericPurl name []
    occurrences := evidencePaths.filter (· ≠ []) }

inductive FirebaseSource
  | android
  | ios
  deriving DecidableEq

def firebaseRef (projectID : Text) : Text := if projectID = [] then "Firebase".toList else projectID

def newFirebaseComponent (projectID : Text) (sdks : List Text) (source : FirebaseSource)
    (evidencePath : Text) : SBOMComponent :=
  { type := .library
    name := if projectID = [] then "Firebase".toList
      else "Firebase (".toList ++ projectID ++ ")".toList
    bomRef := bomRefOf "firebase" (firebaseRef projectID)
    purl := match source with
      | .android => "pkg:maven/com.google.firebase/firebase-bom".toList
      | .ios => "pkg:cocoapods/Firebase".toList
    group := match source with
      | .android => "com.google.firebase".toList
      | .ios => if sdks = [] then [] else "sdks: ".toList ++ ", ".toList.intercalate sdks
    occurrences := [evidencePath].filter (· ≠ []) }

def newImportedLibraryComponent (name path : Text) : SBOMComponent :=
  let (purl, group) := (purlFor name [] []).getD (genericPurl name [], [])
  { type := .library
    name
    bomRef := bomRefOf "import" name
    purl
    group
    occurrences := [path].filter (· ≠ []) }

theorem purlToOSV_some {purl : Text} (h : purlToOSV purl = some q) :
    ∃ purlType nameAndVer, purl = "pkg:".toList ++ (purlType ++ '/' :: nameAndVer) ∧
      '/' ∉ purlType ∧ purlType ≠ "generic".toList ∧ (splitVersion nameAndVer).2 ≠ [] := by
  simp only [purlToOSV, bind_eq_bind, bind_eq_some_iff] at h
  obtain ⟨rest, hrest, ⟨purlType, nameAndVer⟩, hcut, u, hversion, htype⟩ := h
  obtain ⟨hslash, rfl⟩ := Text.cut_eq_some hcut
  refine ⟨purlType, nameAndVer, ?_, hslash, ?_, fun hnil => ?_⟩
  · rw [cutPrefix] at hrest
    split at hrest
    · rename_i hpre
      rw [← some.inj hrest]
      exact (prefix_iff_eq_append.mp (List.isPrefixOf_iff_prefix.mp hpre)).symm
    · cases hrest
  · intro hgeneric
    have hother : ∀ other ∈ ["maven", "pub", "npm", "swift"], purlType ≠ other.toList := by
      rw [hgeneric]
      decide
    simp only [hother "maven" (by simp), hother "pub" (by simp), hother "npm" (by simp),
      hother "swift" (by simp), if_false, bind_eq_some_iff] at htype
    obtain ⟨-, -, hnone⟩ := htype
    cases hnone
  · simp [hnil] at hversion

theorem purlToOSV_of_not_mem {purl : Text} (h : '@' ∉ purl) : purlToOSV purl = none := by
  cases hq : purlToOSV purl with
  | none => rfl
  | some q =>
    obtain ⟨purlType, nameAndVer, rfl, -, -, hversion⟩ := purlToOSV_some hq
    have hat : '@' ∉ nameAndVer := fun hmem => h (by simp [hmem])
    simp [splitVersion, hat] at hversion

theorem purlToOSV_generic (name version : Text) : purlToOSV (genericPurl name version) = none := by
  rw [genericPurl]
  split
  · rfl
  · cases hq : purlToOSV (withVersion ("pkg:generic/".toList ++ name) version) with
    | none => rfl
    | some q =>
      obtain ⟨purlType, nameAndVer, hpurl, hslash, htype, -⟩ := purlToOSV_some hq
      obtain ⟨rest, hrest⟩ : ∃ rest, withVersion ("pkg:generic/".toList ++ name) version =
          "pkg:".toList ++ ("generic".toList ++ '/' :: rest) := by
        rw [withVersion]
        split
        · exact ⟨name, rfl⟩
        · exact ⟨name ++ '@' :: version, by simp⟩
      rw [hrest] at hpurl
      have hname := append_cancel_left hpurl
      exact absurd (Text.eq_of_append_cons (by decide) hslash hname).symm htype

theorem at_not_mem_coordinate : ∀ e ∈ purlTable, ∀ bundleID purl group,
    e.2.coordinate bundleID = some (purl, group) → '@' ∉ purl := by
  have hfields : ∀ e ∈ purlTable, '@' ∉ e.2.cocoapods.toList ∧ '@' ∉ e.2.swiftHost.toList ∧
      '@' ∉ e.2.mavenGroup.toList ∧ '@' ∉ e.2.mavenArtifact.toList := by decide +kernel
  intro e he bundleID purl group h
  obtain ⟨hpod, hhost, hgroup, hartifact⟩ := hfields e he
  rw [PurlEntry.coordinate] at h
  split at h
  · obtain ⟨rfl, -⟩ := Prod.mk.inj (some.inj h)
    simp [hgroup, hartifact]
  · split at h
    · obtain ⟨rfl, -⟩ := Prod.mk.inj (some.inj h)
      simp [hpod]
    · split at h
      · obtain ⟨rfl, -⟩ := Prod.mk.inj (some.inj h)
        simp [hhost]
      · cases h

theorem purlToOSV_imported (name path : Text) :
    purlToOSV (newImportedLibraryComponent name path).purl = none := by
  rw [newImportedLibraryComponent]
  cases hpurl : purlFor name [] [] with
  | none => exact purlToOSV_generic name []
  | some p =>
    simp only [purlFor, bind_eq_bind, bind_eq_some_iff] at hpurl
    obtain ⟨e, he, ⟨purl, group⟩, hcoord, hp⟩ := hpurl
    obtain rfl := some.inj hp
    exact purlToOSV_of_not_mem
      (at_not_mem_coordinate e (mem_of_find?_eq_some he) [] purl group hcoord)

theorem purlToOSV_firebase (projectID : Text) (sdks : List Text) (source : FirebaseSource)
    (evidencePath : Text) :
    purlToOSV (newFirebaseComponent projectID sdks source evidencePath).purl = none := by
  cases source with
  | android =>
    change purlToOSV "pkg:maven/com.google.firebase/firebase-bom".toList = none
    decide
  | ios =>
    change purlToOSV "pkg:cocoapods/Firebase".toList = none
    decide

end Morf.Sbom
