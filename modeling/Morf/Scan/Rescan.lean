import Morf.Db.Store

/-! The reports of `scanAPK` in `worker/worker.go`, of a first scan and of a later one that finds
the file in the database, with the response builders of `response/`. -/

namespace Morf.Scan.Rescan

open Morf.Lib Morf.Apk Morf.Db

/-- `models.MetaDataModel`, with the components of the manifest apart from the rest. -/
structure MetaDataModel (R : Type) where
  androidManifest : AndroidManifest
  rest : R

/-- What a full scan of a file finds.  `S` is a score, `R` the rest of the metadata, `P` the package
data and `C` an SBOM component.  The hash is that of the file, both in the package data and in the
lookup of duplicates. -/
structure Extraction (S R P C : Type) where
  apkHash : String
  versionName : String
  packageModel : P
  metadata : MetaDataModel R
  scannerData : List (SecretModel S)
  sbomComponents : List C
  firebaseFindings : List PlatformFinding

structure ApkJob (S R P C : Type) where
  originalFilename : String
  file : Extraction S R P C

/-- A result envelope.  The last two keys of its data may be missing. -/
structure Envelope (S R P C : Type) where
  message : String
  fileName : String
  package : P
  rest : R
  secretCount : Nat
  secrets : List (SecretModel S)
  activities : List ManifestComponentInfo
  services : List ManifestComponentInfo
  contentProviders : List ManifestProviderInfo
  broadcastReceivers : List ManifestComponentInfo
  sbomComponents : Option (List C) := none
  platformFindings : Option (List PlatformFinding) := none

section

variable {S R P C : Type}

def createSecretModel (job : ApkJob S R P C) : Secrets S (MetaDataModel R) P :=
  let x := job.file
  { fileName := job.originalFilename
    apkHash := x.apkHash
    apkVersion := x.versionName
    secretModel := x.scannerData
    metadata := { x.metadata with androidManifest := ⟨[], [], [], []⟩ }
    packageDataModel := x.packageModel
    activities := x.metadata.androidManifest.activities
    services := x.metadata.androidManifest.services
    contentProviders := x.metadata.androidManifest.contentProviders
    broadcastReceivers := x.metadata.androidManifest.broadcastReceivers }

def createResponse (message : String) (secret : Secrets S (MetaDataModel R) P)
    (scannerData : List (SecretModel S)) : Envelope S R P C where
  message := message
  fileName := secret.fileName
  package := secret.packageDataModel
  rest := secret.metadata.rest
  secretCount := scannerData.length
  secrets := scannerData
  activities := secret.activities
  services := secret.services
  contentProviders := secret.contentProviders
  broadcastReceivers := secret.broadcastReceivers

def createSuccessResponse (job : ApkJob S R P C) : Envelope S R P C :=
  let x := job.file
  let e : Envelope S R P C := createResponse "Success" (createSecretModel job) x.scannerData
  { e with
    sbomComponents := if x.sbomComponents.isEmpty then none else some x.sbomComponents
    platformFindings :=
      some (analyzeExposure (some x.metadata.androidManifest) ++ x.firebaseFindings) }

def createDuplicateResponse (existing : Secrets S (MetaDataModel R) P) : Envelope S R P C :=
  createResponse "Item already exists" existing existing.secretModel

theorem sbomComponents_success (job : ApkJob S R P C) :
    (createSuccessResponse job).sbomComponents.getD [] = job.file.sbomComponents := by
  cases h : job.file.sbomComponents with
  | nil => simp [createSuccessResponse, h]
  | cons x xs => simp [createSuccessResponse, h]

def Envelope.types (e : Envelope S R P C) : List (String × String) :=
  e.secrets.map fun s => (s.type, s.secretType)

structure Envelope.SameReport (e e' : Envelope S R P C) : Prop where
  platformFindings : e'.platformFindings.getD [] = e.platformFindings.getD []
  sbomComponents : e'.sbomComponents.getD [] = e.sbomComponents.getD []
  secretCount : e'.secretCount = e.secretCount
  types : e'.types = e.types

variable [Zero S] [DecidableEq S] (c : Codecs (MetaDataModel R))

/-- `scanAPK` from the lookup of the file on, with the nonces for the values that it stores. -/
def scanAPK (db : Database S P) (run : ApkJob S R P C × (Nat → Option (List UInt8))) :
    Envelope S R P C × Database S P :=
  match checkDuplicateInDB c (some db) run.1.file.apkHash with
  | some existing => (createDuplicateResponse existing, db)
  | none =>
    (createSuccessResponse run.1,
      insertSecretsSync c run.2 (createSecretModel run.1) "android" db)

def scanAll (db : Database S P) (runs : List (ApkJob S R P C × (Nat → Option (List UInt8)))) :
    Database S P :=
  runs.foldl (fun db run => (scanAPK c db run).2) db

variable {c} {db : Database S P}

theorem secrets_scanAPK {hash : String} (h : db.secrets hash = some r) :
    (scanAPK c db run).2.secrets hash = some r := by
  unfold scanAPK
  split
  · exact h
  · exact secrets_insert_of_some h

theorem secrets_scanAll {hash : String} (h : db.secrets hash = some r)
    (runs : List (ApkJob S R P C × (Nat → Option (List UInt8)))) :
    (scanAll c db runs).secrets hash = some r := by
  induction runs generalizing db with
  | nil => exact h
  | cons run runs ih => exact ih (secrets_scanAPK h)

theorem scanAPK_of_none (h : db.secrets run.1.file.apkHash = none) : scanAPK c db run =
    (createSuccessResponse run.1,
      insertSecretsSync c run.2 (createSecretModel run.1) "android" db) := by
  rw [scanAPK, checkDuplicateInDB, Option.bind_some, h, Option.map_none]

theorem scanAPK_of_some (h : db.secrets run.1.file.apkHash = some r) :
    scanAPK c db run = (createDuplicateResponse (readSecret c duplicateFinding r), db) := by
  rw [scanAPK, checkDuplicateInDB, Option.bind_some, h, Option.map_some]

theorem types_readSecret (s : Secrets S (MetaDataModel R) P) (platform : String) :
    ((readSecret c duplicateFinding (insertedRow c nonces s platform db)).secretModel.map
      fun m => (m.type, m.secretType)) = s.secretModel.map fun m => (m.type, m.secretType) := by
  refine List.ext_getElem ?_ fun i h₁ h₂ => ?_
  · simp [readSecret, insertedRow, buildSecret]
  · simp [readSecret, insertedRow, buildSecret, duplicateFinding, buildSecretFinding]

theorem scanAPK_again {first second : ApkJob S R P C × (Nat → Option (List UInt8))}
    (between : List (ApkJob S R P C × (Nat → Option (List UInt8))))
    (hfile : second.1.file.apkHash = first.1.file.apkHash)
    (hnew : db.secrets first.1.file.apkHash = none) :
    (scanAPK c (scanAll c (scanAPK c db first).2 between) second).1 =
      createDuplicateResponse (readSecret c duplicateFinding
        (insertedRow c first.2 (createSecretModel first.1) "android" db)) := by
  have hrow : (scanAPK c db first).2.secrets second.1.file.apkHash =
      some (insertedRow c first.2 (createSecretModel first.1) "android" db) := by
    rw [scanAPK_of_none hnew, hfile]
    exact secrets_insert hnew
  rw [scanAPK_of_some (secrets_scanAll hrow between)]

/-- A later scan of a file reports the number and types of the secrets of the first one; it reports
the same just if the first one had neither platform findings nor SBOM components. -/
theorem rescan_same_iff (c : Codecs (MetaDataModel R)) (db : Database S P)
    (first second : ApkJob S R P C × (Nat → Option (List UInt8)))
    (between : List (ApkJob S R P C × (Nat → Option (List UInt8))))
    (hfile : second.1.file.apkHash = first.1.file.apkHash)
    (hnew : db.secrets first.1.file.apkHash = none) :
    let e := (scanAPK c db first).1
    let e' := (scanAPK c (scanAll c (scanAPK c db first).2 between) second).1
    e'.secretCount = e.secretCount ∧ e'.types = e.types ∧
      (e.SameReport e' ↔
        analyzeExposure (some first.1.file.metadata.androidManifest) ++
            first.1.file.firebaseFindings = [] ∧
          first.1.file.sbomComponents = []) := by
  intro e e'
  have he : e = createSuccessResponse first.1 := congrArg Prod.fst (scanAPK_of_none hnew)
  have he' : e' = createDuplicateResponse _ := scanAPK_again between hfile hnew
  have htypes : e'.types = e.types := by
    rw [he, he']
    exact types_readSecret (createSecretModel first.1) "android"
  have hcount : e'.secretCount = e.secretCount := by
    have hlength := congrArg List.length htypes
    rw [he, he'] at hlength ⊢
    rwa [Envelope.types, Envelope.types, List.length_map, List.length_map] at hlength
  refine ⟨hcount, htypes, fun h => ⟨?_, ?_⟩, fun h => ⟨?_, ?_, hcount, htypes⟩⟩
  · have := h.platformFindings
    rw [he, he'] at this
    exact this.symm
  · have := h.sbomComponents
    rw [he, he', sbomComponents_success] at this
    exact this.symm
  · rw [he, he']
    exact h.1.symm
  · rw [he, he', sbomComponents_success]
    exact h.2.symm

def activityJob (activities : List ManifestComponentInfo) :
    ApkJob Int Unit Unit Unit × (Nat → Option (List UInt8)) where
  fst :=
    { originalFilename := "app.apk"
      file :=
        { apkHash := "hash"
          versionName := "1.0"
          packageModel := ()
          metadata := ⟨⟨activities, [], [], []⟩, ()⟩
          scannerData :=
            [⟨"key", 7, "a.xml".toList, "AWS", "AKIA0000".toList, "high", 0, "", "", ""⟩]
          sbomComponents := []
          firebaseFindings := [] } }
  snd _ := none

def rescanCodecs : Codecs (MetaDataModel Unit) := plainCodecs ⟨⟨[], [], [], []⟩, ()⟩

def reports (run : ApkJob Int Unit Unit Unit × (Nat → Option (List UInt8))) :
    Envelope Int Unit Unit Unit × Envelope Int Unit Unit Unit :=
  let first := scanAPK rescanCodecs ⟨fun _ => none, fun _ => none⟩ run
  (first.1, (scanAPK rescanCodecs first.2 run).1)

theorem plain_file_reported_again :
    (reports (activityJob [])).1.SameReport (reports (activityJob [])).2 :=
  (rescan_same_iff rescanCodecs ⟨fun _ => none, fun _ => none⟩ (activityJob []) (activityJob []) []
    rfl rfl).2.2.mpr ⟨rfl, rfl⟩

/-- An exported activity without a permission is reported by the first scan only. -/
theorem exposed_activity_reported_once :
    ((reports (activityJob [⟨"Main".toList, true, [], []⟩])).1.platformFindings.map List.length =
      some 1) ∧
    (reports (activityJob [⟨"Main".toList, true, [], []⟩])).2.platformFindings.isNone := by
  decide

end

end Morf.Scan.Rescan
