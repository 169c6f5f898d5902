import Mathlib.Algebra.Ring.Int.Defs
import Mathlib.Logic.Function.Basic
import Morf.Apk.Exposure
import Morf.Crypto.AtRest

/-! What a scan leaves in the database, and what is read of it again: `insertSecretsSync` and
`convertSecretToOldFormat` of `db/db.go`, and `CheckDuplicateInDB` of `utils/database.go`. -/

namespace Morf.Db

open Morf.Lib Morf.Apk Morf.Crypto
open List Function

structure SecretModel (S : Type) where
  type : String
  lineNo : Int
  fileLocation : Text
  secretType : String
  secretString : Text
  secretConfidence : String
  score : S
  tier : String
  verificationStatus : String
  masvsID : String

structure Secrets (S M P : Type) where
  fileName : String
  apkHash : String
  apkVersion : String
  secretModel : List (SecretModel S)
  metadata : M
  packageDataModel : P
  activities : List ManifestComponentInfo
  services : List ManifestComponentInfo
  contentProviders : List ManifestProviderInfo
  broadcastReceivers : List ManifestComponentInfo

structure SecretFinding (S : Type) where
  type : String
  lineNo : Int
  fileLocation : Text
  secretType : String
  secretString : Text
  fingerprint : String
  secretConfidence : String
  score : Option S
  tier : String
  verificationStatus : String
  masvsID : String

structure Component where
  name : Text
  exported : Bool
  intentFilters : Text

structure ContentProvider where
  name : Text
  exported : Bool
  intentFilters : Text
  authorities : Text
  grantUriPermissions : Bool

structure Secret (S P : Type) where
  fileName : String
  apkHash : String
  apkVersion : String
  secretCount : Nat
  platform : String
  metadata : Text
  packageData : P
  secretFindings : List (SecretFinding S)
  activities : List Component
  services : List Component
  contentProviders : List ContentProvider
  broadcastReceivers : List Component

/-- The hash is a unique key of both tables. -/
structure Database (S P : Type) where
  packageData : String → Option P
  secrets : String → Option (Secret S P)

/-- A slice in a column of type JSON.  What `json.Unmarshal` does not understand leaves the slice
empty. -/
structure JsonColumn (α : Type) where
  marshal : List α → Text
  unmarshal : Text → List α

/-- What the functions take from elsewhere: the codecs of the columns, and the package `crypto`
with the setting of its key. -/
structure Codecs (M : Type) where
  filters : JsonColumn ManifestFilter
  authorities : JsonColumn Text
  metadata : M → Option Text
  readMetadata : Text → Option M
  noMetadata : M
  lib : Library
  key : Text
  fingerprint : Text → String

def jsonColumnValue (s : Text) : Text :=
  let t := Text.trimSpace s
  if t ≠ [] ∧ t ≠ "null".toList then t else "[]".toList

open SecretModel

def JsonColumn.read {α : Type} (c : JsonColumn α) (text : Text) : List α :=
  if text ≠ [] then c.unmarshal text else []

section

variable {M P : Type} [Zero S] [DecidableEq S] (c : Codecs M)

def buildSecretFinding (nonce : Option (List UInt8)) (s : SecretModel S) : SecretFinding S where
  type := s.type
  lineNo := s.lineNo
  fileLocation := s.fileLocation
  secretType := s.secretType
  secretString := protectAtRest c.lib c.key nonce s.secretString
  fingerprint := c.fingerprint s.secretString
  secretConfidence := s.secretConfidence
  score := if s.score ≠ 0 then some s.score else none
  tier := s.tier
  verificationStatus := s.verificationStatus
  masvsID := s.masvsID

def buildComponent (i : ManifestComponentInfo) : Component where
  name := i.name
  exported := i.exported
  intentFilters := jsonColumnValue (c.filters.marshal i.intentFilters)

def buildProvider (i : ManifestProviderInfo) : ContentProvider where
  name := i.name
  exported := i.exported
  intentFilters := "[]".toList
  authorities := jsonColumnValue (c.authorities.marshal i.authorities)
  grantUriPermissions := i.grantUriPermissions

/-- The rows of one scan.  An iOS scan has none in the tables of Android components. -/
def buildSecret (nonces : Nat → Option (List UInt8)) (platform : String) (packageData : P)
    (s : Secrets S M P) : Secret S P where
  fileName := s.fileName
  apkHash := s.apkHash
  apkVersion := s.apkVersion
  secretCount := s.secretModel.length
  platform := platform
  metadata := (c.metadata s.metadata).getD "\x7b\x7d".toList
  packageData := packageData
  secretFindings := s.secretModel.mapIdx fun i => buildSecretFinding c (nonces i)
  activities := if platform = "ios" then [] else s.activities.map (buildComponent c)
  services := if platform = "ios" then [] else s.services.map (buildComponent c)
  contentProviders := if platform = "ios" then [] else s.contentProviders.map (buildProvider c)
  broadcastReceivers :=
    if platform = "ios" then [] else s.broadcastReceivers.map (buildComponent c)

def insertSecretsSync (nonces : Nat → Option (List UInt8)) (s : Secrets S M P) (platform : String)
    (db : Database S P) : Database S P :=
  let platform := if platform = "" then "android" else platform
  -- the row of the package is created once and never updated
  let packageData := (db.packageData s.apkHash).getD s.packageDataModel
  let db := { db with packageData := Function.update db.packageData s.apkHash (some packageData) }
  match db.secrets s.apkHash with
  | some _ => db
  | none =>
    let row := buildSecret c nonces platform packageData s
    { db with secrets := Function.update db.secrets s.apkHash (some row) }

def readComponent (r : Component) : ManifestComponentInfo where
  name := r.name
  exported := r.exported
  permission := []
  intentFilters := c.filters.read r.intentFilters

def readProvider (r : ContentProvider) : ManifestProviderInfo where
  name := r.name
  exported := r.exported
  permission := []
  readPermission := []
  writePermission := []
  authorities := c.authorities.read r.authorities
  grantUriPermissions := r.grantUriPermissions

def readSecret (readFinding : SecretFinding S → SecretModel S) (r : Secret S P) :
    Secrets S M P where
  fileName := r.fileName
  apkHash := r.apkHash
  apkVersion := r.apkVersion
  secretModel := r.secretFindings.map readFinding
  metadata := (c.readMetadata r.metadata).getD c.noMetadata
  packageDataModel := r.packageData
  activities := r.activities.map (readComponent c)
  services := r.services.map (readComponent c)
  contentProviders := r.contentProviders.map (readProvider c)
  broadcastReceivers := r.broadcastReceivers.map (readComponent c)

def oldFinding (f : SecretFinding S) : SecretModel S where
  type := f.type
  lineNo := f.lineNo
  fileLocation := f.fileLocation
  secretType := f.secretType
  secretString := f.secretString
  secretConfidence := f.secretConfidence
  score := 0
  tier := ""
  verificationStatus := ""
  masvsID := ""

def convertSecretToOldFormat (r : Secret S P) : Secrets S M P := readSecret c oldFinding r

def duplicateFinding (f : SecretFinding S) : SecretModel S where
  type := f.type
  lineNo := f.lineNo
  fileLocation := f.fileLocation
  secretType := f.secretType
  secretString := f.secretString
  secretConfidence := f.secretConfidence
  score := f.score.getD 0
  tier := f.tier
  verificationStatus := f.verificationStatus
  masvsID := f.masvsID

/-- What is found under the hash of a file; the source returns it as a JSON text, which
`ParseExistingSecret` reads again. -/
def checkDuplicateInDB (db : Option (Database S P)) (hash : String) : Option (Secrets S M P) :=
  db.bind fun db => (db.secrets hash).map (readSecret c duplicateFinding)

structure JsonColumn.Keeps {α : Type} (col : JsonColumn α) (xs : List α) : Prop where
  back : col.unmarshal (col.marshal xs) = xs
  trimmed : Text.trimSpace (col.marshal xs) = col.marshal xs
  nothing : ∀ t ∈ [[], "null".toList, "[]".toList], col.unmarshal t = []

theorem JsonColumn.Keeps.read {col : JsonColumn α} {xs : List α} (h : col.Keeps xs) :
    col.read (jsonColumnValue (col.marshal xs)) = xs := by
  have hback := h.back
  simp only [jsonColumnValue, h.trimmed]
  split
  · rename_i ht
    rw [JsonColumn.read, if_pos ht.1, hback]
  · rename_i ht
    have hempty : xs = [] := by
      rw [not_and_or, not_not, not_not] at ht
      rw [← hback]
      rcases ht with ht | ht
      · exact h.nothing _ (by simp [ht])
      · exact h.nothing _ (by simp [ht])
    rw [hempty]
    exact h.nothing _ (by simp)

structure Codecs.Keeps (s : Secrets S M P) : Prop where
  activities : ∀ i ∈ s.activities, c.filters.Keeps i.intentFilters
  services : ∀ i ∈ s.services, c.filters.Keeps i.intentFilters
  broadcastReceivers : ∀ i ∈ s.broadcastReceivers, c.filters.Keeps i.intentFilters
  contentProviders : ∀ i ∈ s.contentProviders, c.authorities.Keeps i.authorities

def SecretModel.protect (nonce : Option (List UInt8)) (s : SecretModel S) : SecretModel S :=
  { s with secretString := protectAtRest c.lib c.key nonce s.secretString }

structure Secrets.Returned (nonces : Nat → Option (List UInt8)) (s t : Secrets S M P) : Prop where
  secretModel : t.secretModel = s.secretModel.mapIdx fun i => protect c (nonces i)
  activities : t.activities = s.activities
  services : t.services = s.services
  contentProviders : t.contentProviders = s.contentProviders
  broadcastReceivers : t.broadcastReceivers = s.broadcastReceivers

def SecretModel.Bare (s : SecretModel S) : Prop :=
  s.score = 0 ∧ s.tier = "" ∧ s.verificationStatus = "" ∧ s.masvsID = ""

structure Secrets.Unguarded (s : Secrets S M P) : Prop where
  activities : ∀ i ∈ s.activities, i.permission = []
  services : ∀ i ∈ s.services, i.permission = []
  broadcastReceivers : ∀ i ∈ s.broadcastReceivers, i.permission = []
  contentProviders : ∀ i ∈ s.contentProviders,
    i.permission = [] ∧ i.readPermission = [] ∧ i.writePermission = []

structure Secrets.NoComponents (s : Secrets S M P) : Prop where
  activities : s.activities = []
  services : s.services = []
  contentProviders : s.contentProviders = []
  broadcastReceivers : s.broadcastReceivers = []

variable {c} {s : Secrets S M P} {nonces : Nat → Option (List UInt8)}

theorem duplicateFinding_build (nonce : Option (List UInt8)) (m : SecretModel S) :
    duplicateFinding (buildSecretFinding c nonce m) = m.protect c nonce := by
  have hscore : (if m.score ≠ 0 then some m.score else none).getD 0 = m.score := by
    split
    · rfl
    · rename_i hzero
      exact (not_not.mp hzero).symm
  rw [duplicateFinding, buildSecretFinding, hscore]
  rfl

theorem oldFinding_build_iff (nonce : Option (List UInt8)) (m : SecretModel S) :
    oldFinding (buildSecretFinding c nonce m) = m.protect c nonce ↔ m.Bare := by
  constructor
  · intro h
    exact ⟨congrArg score h.symm, congrArg tier h.symm,
      congrArg verificationStatus h.symm, congrArg masvsID h.symm⟩
  · rintro ⟨hscore, htier, hstatus, hmasvs⟩
    rw [protect, hscore, htier, hstatus, hmasvs]
    rfl

theorem readComponent_build_iff (h : c.filters.Keeps i.intentFilters) :
    readComponent c (buildComponent c i) = i ↔ i.permission = [] := by
  rw [readComponent, buildComponent, h.read]
  constructor
  · intro hi
    exact (congrArg ManifestComponentInfo.permission hi).symm
  · intro hi
    rw [← hi]

theorem readProvider_build_iff (h : c.authorities.Keeps i.authorities) :
    readProvider c (buildProvider c i) = i ↔
      i.permission = [] ∧ i.readPermission = [] ∧ i.writePermission = [] := by
  rw [readProvider, buildProvider, h.read]
  constructor
  · intro hi
    exact ⟨congrArg ManifestProviderInfo.permission hi.symm,
      congrArg ManifestProviderInfo.readPermission hi.symm,
      congrArg ManifestProviderInfo.writePermission hi.symm⟩
  · cases i
    rintro ⟨rfl, rfl, rfl⟩
    rfl

theorem readRows_iff (platform : String) {ι ρ : Type} {build : ι → ρ} {read : ρ → ι}
    {xs : List ι} {Q : ι → Prop} (h : ∀ i ∈ xs, (read (build i) = i ↔ Q i)) :
    (if platform = "ios" then [] else xs.map build).map read = xs ↔
      (platform = "ios" → xs = []) ∧ ∀ i ∈ xs, Q i := by
  by_cases hios : platform = "ios"
  · rw [if_pos hios]
    constructor
    · rintro rfl
      exact ⟨fun _ => rfl, fun i hi => absurd hi not_mem_nil⟩
    · intro hxs
      rw [hxs.1 hios]
      rfl
  · have hmap : (xs.map build).map read = xs ↔ ∀ i ∈ xs, read (build i) = i := by
      rw [map_map]
      nth_rewrite 2 [← map_id xs]
      exact map_inj_left
    rw [if_neg hios, hmap, and_iff_right fun h => absurd h hios]
    exact forall₂_congr h

variable (c nonces) in
def insertedRow (s : Secrets S M P) (platform : String) (db : Database S P) : Secret S P :=
  buildSecret c nonces (if platform = "" then "android" else platform)
    ((db.packageData s.apkHash).getD s.packageDataModel) s

theorem secrets_insert (hnew : db.secrets s.apkHash = none) :
    (insertSecretsSync c nonces s platform db).secrets s.apkHash =
      some (insertedRow c nonces s platform db) := by
  simp only [insertSecretsSync, hnew, update_self, insertedRow]

theorem secrets_insert_of_some {hash : String} (h : db.secrets hash = some r) :
    (insertSecretsSync c nonces s platform db).secrets hash = some r := by
  unfold insertSecretsSync
  dsimp only
  split
  · exact h
  · rename_i hnone
    have hne : hash ≠ s.apkHash := by
      rintro rfl
      rw [hnone] at h
      cases h
    exact (update_of_ne hne _ _).trans h

theorem default_platform : (if platform = "" then "android" else platform) = "ios" ↔
    platform = "ios" := by
  split
  · rename_i h
    rw [h]
    decide
  · rfl

theorem readFindings_iff {Q : SecretModel S → Prop}
    (h : ∀ nonce m, readFinding (buildSecretFinding c nonce m) = m.protect c nonce ↔ Q m)
    (xs : List (SecretModel S)) :
    (xs.mapIdx fun i => buildSecretFinding c (nonces i)).map readFinding =
      (xs.mapIdx fun i => protect c (nonces i)) ↔ ∀ m ∈ xs, Q m := by
  have hmap : (xs.mapIdx fun i => buildSecretFinding c (nonces i)).map readFinding =
      xs.mapIdx fun i m => readFinding (buildSecretFinding c (nonces i) m) :=
    ext_getElem (by simp) fun i h₁ h₂ => by simp
  rw [hmap, mapIdx_eq_mapIdx_iff, forall_mem_iff_getElem]
  exact forall₂_congr fun i hi => h (nonces i) _

theorem returned_iff {Q : SecretModel S → Prop}
    (hfinding : ∀ nonce m, readFinding (buildSecretFinding c nonce m) = m.protect c nonce ↔ Q m)
    (hkeep : c.Keeps s) (packageData : P) :
    s.Returned c nonces
        (readSecret c readFinding (buildSecret c nonces platform packageData s)) ↔
      (∀ m ∈ s.secretModel, Q m) ∧ s.Unguarded ∧ (platform = "ios" → s.NoComponents) := by
  have hact := readRows_iff platform fun i hi =>
    readComponent_build_iff (hkeep.activities i hi)
  have hserv := readRows_iff platform fun i hi =>
    readComponent_build_iff (hkeep.services i hi)
  have hrec := readRows_iff platform fun i hi =>
    readComponent_build_iff (hkeep.broadcastReceivers i hi)
  have hprov := readRows_iff platform fun i hi =>
    readProvider_build_iff (hkeep.contentProviders i hi)
  constructor
  · intro h
    have hact := hact.mp h.activities
    have hserv := hserv.mp h.services
    have hrec := hrec.mp h.broadcastReceivers
    have hprov := hprov.mp h.contentProviders
    exact ⟨(readFindings_iff hfinding s.secretModel).mp h.secretModel,
      ⟨hact.2, hserv.2, hrec.2, hprov.2⟩,
      fun hios => ⟨hact.1 hios, hserv.1 hios, hprov.1 hios, hrec.1 hios⟩⟩
  · rintro ⟨hfindings, hopen, hios⟩
    exact ⟨(readFindings_iff hfinding s.secretModel).mpr hfindings,
      hact.mpr ⟨fun h => (hios h).activities, hopen.activities⟩,
      hserv.mpr ⟨fun h => (hios h).services, hopen.services⟩,
      hprov.mpr ⟨fun h => (hios h).contentProviders, hopen.contentProviders⟩,
      hrec.mpr ⟨fun h => (hios h).broadcastReceivers, hopen.broadcastReceivers⟩⟩

theorem returned_insert_iff {Q : SecretModel S → Prop}
    (hfinding : ∀ nonce m, readFinding (buildSecretFinding c nonce m) = m.protect c nonce ↔ Q m)
    (hkeep : c.Keeps s) :
    s.Returned c nonces (readSecret c readFinding (insertedRow c nonces s platform db)) ↔
      (∀ m ∈ s.secretModel, Q m) ∧ s.Unguarded ∧ (platform = "ios" → s.NoComponents) := by
  rw [insertedRow, returned_iff hfinding hkeep, default_platform]

/-- The reader for duplicates gives back a scan just if none of its components has a permission,
and the other reader if moreover none of its findings has been enriched. -/
theorem read_back_iff (c : Codecs M) (nonces : Nat → Option (List UInt8)) (s : Secrets S M P)
    (platform : String) (db : Database S P) (hnew : db.secrets s.apkHash = none)
    (hkeep : c.Keeps s) :
    ∃ r t, (insertSecretsSync c nonces s platform db).secrets s.apkHash = some r ∧
      checkDuplicateInDB c (some (insertSecretsSync c nonces s platform db)) s.apkHash = some t ∧
      (s.Returned c nonces t ↔ s.Unguarded ∧ (platform = "ios" → s.NoComponents)) ∧
      (s.Returned c nonces (convertSecretToOldFormat c r) ↔
        (∀ m ∈ s.secretModel, m.Bare) ∧ s.Unguarded ∧ (platform = "ios" → s.NoComponents)) := by
  have hrow : (insertSecretsSync c nonces s platform db).secrets s.apkHash = _ :=
    secrets_insert hnew
  refine ⟨insertedRow c nonces s platform db,
    readSecret c duplicateFinding (insertedRow c nonces s platform db), hrow, ?_, ?_,
    returned_insert_iff oldFinding_build_iff hkeep⟩
  · rw [checkDuplicateInDB, Option.bind_some, hrow, Option.map_some]
  · rw [returned_insert_iff (fun nonce m => iff_true_intro (duplicateFinding_build nonce m)) hkeep]
    exact and_iff_right fun _ _ => trivial

def plainCodecs (metadata : M) : Codecs M where
  filters := ⟨fun _ => "[]".toList, fun _ => []⟩
  authorities := ⟨fun _ => "[]".toList, fun _ => []⟩
  metadata _ := some "\x7b\x7d".toList
  readMetadata _ := some metadata
  noMetadata := metadata
  lib := ⟨fun _ => none, fun _ => none, fun _ => none, fun _ => [], fun _ => none, fun _ => []⟩
  key := []
  fingerprint _ := ""

def smallScan (tier : String) (permission : Text) : Secrets Int Unit Unit where
  fileName := "app.apk"
  apkHash := "hash"
  apkVersion := "1.0"
  secretModel := [⟨"key", 7, "a.xml".toList, "AWS", "AKIA0000".toList, "high", 0, tier, "", ""⟩]
  metadata := ()
  packageDataModel := ()
  activities := [⟨"Main".toList, true, permission, []⟩]
  services := []
  contentProviders := []
  broadcastReceivers := []

theorem keeps_smallScan (tier : String) (permission : Text) :
    (plainCodecs ()).Keeps (smallScan tier permission) where
  activities i hi := by
    obtain rfl := mem_singleton.mp hi
    have htrimmed : Text.trimSpace "[]".toList = "[]".toList := by decide
    exact ⟨rfl, htrimmed, fun _ _ => rfl⟩
  services i hi := absurd hi not_mem_nil
  broadcastReceivers i hi := absurd hi not_mem_nil
  contentProviders i hi := absurd hi not_mem_nil

def stored (s : Secrets Int Unit Unit) : Database Int Unit :=
  insertSecretsSync (plainCodecs ()) (fun _ => none) s "android" ⟨fun _ => none, fun _ => none⟩

/-- A scan that has nothing to lose. -/
theorem bare_scan_read_back : ∃ r t, (stored (smallScan "" [])).secrets "hash" = some r ∧
    checkDuplicateInDB (plainCodecs ()) (some (stored (smallScan "" []))) "hash" = some t ∧
    (smallScan "" []).Returned (plainCodecs ()) (fun _ => none) t ∧
    (smallScan "" []).Returned (plainCodecs ()) (fun _ => none)
      (convertSecretToOldFormat (plainCodecs ()) r) := by
  obtain ⟨r, t, hr, ht, hdup, hold⟩ := read_back_iff (plainCodecs ()) (fun _ => none)
    (smallScan "" []) "android" ⟨fun _ => none, fun _ => none⟩ rfl (keeps_smallScan "" [])
  have hopen : (smallScan "" []).Unguarded :=
    ⟨by simp [smallScan], by simp [smallScan], by simp [smallScan], by simp [smallScan]⟩
  have hios : "android" = "ios" → (smallScan "" []).NoComponents := fun h => absurd h (by decide)
  refine ⟨r, t, hr, ht, hdup.mpr ⟨hopen, hios⟩, hold.mpr ⟨?_, hopen, hios⟩⟩
  intro m hm
  obtain rfl := mem_singleton.mp hm
  exact ⟨rfl, rfl, rfl, rfl⟩

/-- The permission of an activity is lost, and by one of the readers the tier of a finding. -/
theorem tier_and_permission_lost : ∃ r t,
    (stored (smallScan "keep" "p".toList)).secrets "hash" = some r ∧
    checkDuplicateInDB (plainCodecs ()) (some (stored (smallScan "keep" "p".toList))) "hash" =
      some t ∧
    t.activities.map ManifestComponentInfo.permission = [[]] ∧
    (convertSecretToOldFormat (plainCodecs ()) r).secretModel.map tier = [""] :=
  ⟨_, _, rfl, rfl, rfl, rfl⟩

end

end Morf.Db
