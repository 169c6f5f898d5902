import Morf.Apk.Exposure
import Morf.Lib.Fields
import Morf.Lib.Url

/-! `apk/firebase_misconfig.go`: what a `google-services.json` tells of a Firebase project, and the
request with which the rules of its database are tested. -/

namespace Morf.Apk

open Morf.Lib Morf.Lib.Json
open List Option Url

structure FirebaseResourceConfig where
  rtdbURL : Text
  storageBucket : Text

/-- What is read here of the configuration that was decoded before. -/
structure GoogleServicesConfig where
  projectID : Text

/-- The members of the objects.  A value of another type is an error that is passed over. -/
def membersOf (vs : List Json) : Members := vs.flatMap fun v => (asObject v).getD []

def lastText (vs : List Json) : Text := ((vs.filterMap asString).getLast?).getD []

def projectInfo (name : String) (rawJSON : Text) : Text :=
  match parse rawJSON with
  | none => []
  | some v => lastText (received name (membersOf (received "project_info" (membersOf [v]))))

def defaultHost : Text := "-default-rtdb.firebaseio.com".toList

def androidFirebaseResourceConfig (rawJSON : Text) :
    Option GoogleServicesConfig → FirebaseResourceConfig
  | none => ⟨[], []⟩
  | some cfg =>
    let dbURL := projectInfo "database_url" rawJSON
    { rtdbURL :=
        if dbURL = [] && cfg.projectID ≠ [] then "https://".toList ++ cfg.projectID ++ defaultHost
        else dbURL
      storageBucket := projectInfo "storage_bucket" rawJSON }

section Findings

def firebaseDomains : List Text := ["firebaseio.com".toList, "firebasedatabase.app".toList]

def isFirebaseRTDB (rawURL : Text) : Bool :=
  firebaseDomains.any fun d => Text.contains d (rawURL.map Text.toLower)

/-- `MORF_ENABLE_VERIFICATION`, the rate limiter, and the answers to requests: the status, or none
for an error of the transport. -/
structure Network where
  verification : String
  limiterWaits : Bool
  get : Text → Option Nat

variable (L : Url.Literals) (net : Network)

/-- An escape in the host stays as it is written. -/
def rtdbHostFromURL (rawURL : Text) : Text :=
  match parse L rawURL with
  | none => rawURL
  | some u =>
    if u.authority.host = [] then rawURL else u.scheme ++ "://".toList ++ u.authority.host

def probeURL (dbURL : Text) : Text := dbURL.rdropWhile (· = '/') ++ "/.json".toList

def probeRTDBWorldReadable (dbURL : Text) : List Text × Option Bool :=
  if !net.limiterWaits || (requestHost L (probeURL dbURL)).isNone then ([], none)
  else
    ([probeURL dbURL],
      match net.get (probeURL dbURL) with
      | some status =>
        if status = 200 then some true
        else if status = 401 ∨ status = 403 then some false
        else none
      | none => none)

def configFinding (configLocation ruleID title : String) (severity : PlatformFindingSeverity)
    (masvsID : String) (evidence : Text) : PlatformFinding :=
  { ruleID, title, severity, masvsID, evidence
    category := "config"
    location := configLocation
    tier := tierForSeverity severity }

def rtdbPresent (configLocation : String) (host : Text) : PlatformFinding :=
  configFinding configLocation "firebase-rtdb-present"
    "Firebase Realtime Database URL present in config" .info "MASVS-PLATFORM-1"
    (host ++ " — verify security rules are not world-readable".toList)

def rtdbWorldReadable (configLocation : String) (host : Text) : PlatformFinding :=
  configFinding configLocation "firebase-rtdb-world-readable"
    "Firebase Realtime Database is world-readable" .high "MASVS-PLATFORM-1"
    (host ++ " — returned HTTP 200 (no authentication required)".toList)

def storagePresent (configLocation : String) (bucket : Text) : PlatformFinding :=
  configFinding configLocation "firebase-storage-present"
    "Firebase Cloud Storage bucket present in config" .info "MASVS-STORAGE-1"
    (bucket ++ " — verify bucket security rules are not world-readable".toList)

def firebaseMisconfigFindings (res : FirebaseResourceConfig) (configLocation : String) :
    List Text × List PlatformFinding :=
  let storage := if res.storageBucket = [] then [] else [storagePresent configLocation res.storageBucket]
  if res.rtdbURL ≠ [] && isFirebaseRTDB res.rtdbURL then
    let host := rtdbHostFromURL L res.rtdbURL
    let probe :=
      if net.verification = "true" then probeRTDBWorldReadable L net res.rtdbURL else ([], none)
    let active := if probe.2 = some true then [rtdbWorldReadable configLocation host] else []
    (probe.1, rtdbPresent configLocation host :: active ++ storage)
  else ([], storage)

def analyzeAndroidFirebaseMisconfig (rawJSON : Text) (cfg : Option GoogleServicesConfig) :
    List Text × List PlatformFinding :=
  match cfg with
  | none => ([], [])
  | some c =>
    if c.projectID = [] then ([], [])
    else firebaseMisconfigFindings L net (androidFirebaseResourceConfig rawJSON (some c))
      "google-services.json"

end Findings

def IsFirebaseHost (host : Text) : Prop :=
  ∃ d ∈ firebaseDomains, host.map Char.toLower = d ∨ '.' :: d <:+ host.map Char.toLower

instance (host : Text) : Decidable (IsFirebaseHost host) :=
  inferInstanceAs (Decidable (∃ d ∈ firebaseDomains, _))

def StaysAtFirebase (L : Url.Literals) (url : Text) : Prop :=
  ∀ host ∈ requestHost L url, IsFirebaseHost host

/-- What the two texts of the configuration have to be.  The domain is appended to a project id
inside of the host, unless the id ends the host. -/
def Confined (L : Url.Literals) (projectID databaseURL : Text) : Prop :=
  if databaseURL = [] then
    (∃ c ∈ projectID, isDelimiter c = true) → StaysAtFirebase L ("https://".toList ++ projectID)
  else isFirebaseRTDB databaseURL = true → StaysAtFirebase L databaseURL

theorem harmless_slashes {s : Text} (h : ∀ c ∈ s, c = '/') : Url.Harmless s where
  head c hc := by
    rw [h c (mem_of_mem_head? hc)]
    decide
  plain c hc := by
    rw [h c hc]
    decide

theorem requestHost_probeURL (dbURL : Text) :
    requestHost L (probeURL dbURL) = requestHost L dbURL := by
  have hall : ∀ c ∈ dbURL.rtakeWhile (· = '/'), c = '/' := fun c hc => by
    simpa using mem_rtakeWhile_imp hc
  have hlast : (dbURL.rdropWhile (· = '/')).getLast? ≠ some '/' := by
    intro h
    have hne : dbURL.rdropWhile (· = '/') ≠ [] := fun hnil => by
      rw [hnil] at h
      cases h
    rw [getLast?_eq_some_getLast hne, some.injEq] at h
    exact rdropWhile_last_not _ _ hne (decide_eq_true h)
  have hprobe : requestHost L (probeURL dbURL) =
      requestHost L (dbURL.rdropWhile (· = '/')) :=
    requestHost_append ⟨Text.forall_head rfl (by decide), Text.forall_of_all (by decide)⟩
      (Text.forall_head rfl rfl)
      (fun c s' h => absurd (cons.inj (cons.inj h).2).1 (by decide)) hlast
  have hown : requestHost L (dbURL.rdropWhile (· = '/') ++ dbURL.rtakeWhile (· = '/')) =
      requestHost L (dbURL.rdropWhile (· = '/')) :=
    requestHost_append (harmless_slashes hall) (fun c hc => hall c (mem_of_mem_head? hc))
      (fun c s' h => hall c (by rw [h]; simp)) hlast
  rw [hprobe, ← hown, rdropWhile_append_rtakeWhile]

theorem isFirebaseRTDB_default (projectID : Text) :
    isFirebaseRTDB ("https://".toList ++ projectID ++ defaultHost) = true := by
  have hlower : defaultHost.map Text.toLower =
      "-default-rtdb.".toList ++ "firebaseio.com".toList ++ [] := by decide
  refine List.any_eq_true.mpr ⟨"firebaseio.com".toList, by decide, ?_⟩
  rw [map_append, hlower, ← append_assoc, ← append_assoc]
  exact Search.contains_iff.mpr ⟨_, _, rfl⟩

theorem isFirebaseHost_default (front : Text) : IsFirebaseHost (front ++ defaultHost) := by
  have hlower : defaultHost.map Char.toLower =
      "-default-rtdb".toList ++ '.' :: "firebaseio.com".toList := by decide
  refine ⟨"firebaseio.com".toList, by decide, .inr ?_⟩
  rw [map_append, hlower, ← append_assoc]
  exact suffix_append _ _

theorem domain_default : Url.Domain defaultHost := ⟨⟨'m', by decide⟩, by decide⟩

theorem harmless_default : Url.Harmless defaultHost :=
  ⟨Text.forall_head rfl (by decide), Text.forall_of_all (by decide)⟩

theorem requestHost_https (t : Text) : requestHost L ("https://".toList ++ t) =
    (readAuthority L t).bind fun a => if hasHost a then some a.hostname else none := by
  have hscheme : getScheme ("https://".toList ++ t) =
      some ("https".toList, '/' :: '/' :: t) :=
    (getScheme_iff (by decide)).mpr
      ⟨rfl, Text.forall_of_all (by decide), Text.forall_head rfl (by decide)⟩
  exact requestHost_of_authority hscheme (by decide)

theorem staysAtFirebase_default (projectID : Text) :
    StaysAtFirebase L ("https://".toList ++ projectID ++ defaultHost) ↔
      ((∃ c ∈ projectID, isDelimiter c = true) →
        StaysAtFirebase L ("https://".toList ++ projectID)) := by
  rw [StaysAtFirebase, StaysAtFirebase, append_assoc, requestHost_https, requestHost_https]
  by_cases h : ∃ c ∈ projectID, isDelimiter c = true
  · rw [readAuthority_append harmless_default (.inl h)]
    exact ⟨fun hhost _ => hhost, fun hhost => hhost h⟩
  · refine ⟨fun _ hdelim => absurd hdelim h, fun _ host hhost => ?_⟩
    have hplain : ∀ c ∈ projectID ++ defaultHost, isDelimiter c = false := by
      intro c hc
      rcases mem_append.mp hc with hc | hc
      · exact Bool.eq_false_iff.mpr fun hd => h ⟨c, hc, hd⟩
      · have hdefault : ∀ c ∈ defaultHost, isDelimiter c = false :=
          Text.forall_of_all (by decide)
        exact hdefault c hc
    obtain ⟨a, ha, hif⟩ := bind_eq_some_iff.mp hhost
    obtain ⟨front, hfront⟩ := hostname_of_domain domain_default hplain ha
    split at hif
    · cases hif
      rw [hfront]
      exact isFirebaseHost_default front
    · cases hif

theorem mem_requests :
    url ∈ (probeRTDBWorldReadable L net dbURL).1 ↔
      net.limiterWaits = true ∧ (requestHost L dbURL).isSome = true ∧ url = probeURL dbURL := by
  rw [probeRTDBWorldReadable, requestHost_probeURL]
  cases net.limiterWaits <;> cases requestHost L dbURL <;> simp

theorem requests_stay_iff (dbURL : Text) :
    (∀ limiterWaits get, ∀ url ∈ (probeRTDBWorldReadable L ⟨"true", limiterWaits, get⟩ dbURL).1,
      ∃ host, requestHost L url = some host ∧ IsFirebaseHost host) ↔ StaysAtFirebase L dbURL := by
  constructor
  · intro h host hhost
    have hsome : (requestHost L dbURL).isSome = true := isSome_of_mem hhost
    obtain ⟨host', hhost', hfirebase⟩ :=
      h true (fun _ => none) (probeURL dbURL) (mem_requests.mpr ⟨rfl, hsome, rfl⟩)
    rw [requestHost_probeURL] at hhost'
    cases hhost.symm.trans hhost'
    exact hfirebase
  · intro h limiterWaits get url hurl
    obtain ⟨-, hsome, rfl⟩ := mem_requests.mp hurl
    obtain ⟨host, hhost⟩ := isSome_iff_exists.mp hsome
    exact ⟨host, (requestHost_probeURL dbURL).trans hhost, h host hhost⟩

theorem requests_of_config (limiterWaits : Bool) (get : Text → Option Nat) (rawJSON : Text)
    {c : GoogleServicesConfig} (hc : c.projectID ≠ [])
    (hurl : (androidFirebaseResourceConfig rawJSON (some c)).rtdbURL = dbURL) :
    (analyzeAndroidFirebaseMisconfig L ⟨"true", limiterWaits, get⟩ rawJSON (some c)).1 =
      if isFirebaseRTDB dbURL = true then
        (probeRTDBWorldReadable L ⟨"true", limiterWaits, get⟩ dbURL).1
      else [] := by
  have hempty : isFirebaseRTDB dbURL = true → dbURL ≠ [] := by
    rintro h rfl
    exact absurd h (by decide)
  simp only [analyzeAndroidFirebaseMisconfig, if_neg hc, firebaseMisconfigFindings, hurl]
  by_cases h : isFirebaseRTDB dbURL = true
  · simp [h, hempty h]
  · simp [h]

theorem confined_iff (rawJSON : Text) {c : GoogleServicesConfig} (hc : c.projectID ≠ []) :
    Confined L c.projectID (projectInfo "database_url" rawJSON) ↔
      (isFirebaseRTDB (androidFirebaseResourceConfig rawJSON (some c)).rtdbURL = true →
        StaysAtFirebase L (androidFirebaseResourceConfig rawJSON (some c)).rtdbURL) := by
  rw [Confined, androidFirebaseResourceConfig]
  by_cases h : projectInfo "database_url" rawJSON = []
  · simp only [h, hc, if_true, decide_true, ne_eq, not_false_eq_true, Bool.and_self,
      isFirebaseRTDB_default, true_implies]
    exact (staysAtFirebase_default c.projectID).symm
  · simp [h]

/-- With active verification, only hosts of Firebase are asked exactly if the configuration is
confined to them. -/
theorem probes_firebase_iff (L : Url.Literals) (rawJSON : Text) (cfg : Option GoogleServicesConfig) :
    (∀ limiterWaits get, ∀ url ∈ (analyzeAndroidFirebaseMisconfig L ⟨"true", limiterWaits, get⟩
        rawJSON cfg).1, ∃ host, requestHost L url = some host ∧ IsFirebaseHost host) ↔
      ∀ c ∈ cfg, c.projectID ≠ [] → Confined L c.projectID (projectInfo "database_url" rawJSON) := by
  cases cfg with
  | none => simp [analyzeAndroidFirebaseMisconfig]
  | some c =>
    simp only [mem_def, some.injEq, forall_eq']
    by_cases hc : c.projectID = []
    · simp [analyzeAndroidFirebaseMisconfig, hc]
    · rw [imp_iff_right hc, confined_iff rawJSON hc, ← requests_stay_iff]
      generalize hurl : (androidFirebaseResourceConfig rawJSON (some c)).rtdbURL = dbURL
      simp only [requests_of_config _ _ rawJSON hc hurl]
      by_cases h : isFirebaseRTDB dbURL = true
      · simp only [if_pos h, imp_iff_right h]
      · simp [h]

def noLiterals : Url.Literals := ⟨fun _ => none, fun h => nomatch h⟩

def shopServices : Text :=
  ("\x7b\"project_info\": \x7b\"project_id\": \"shop\", \"database_url\": " ++
    "\"https://collect.example/firebaseio.com\"\x7d\x7d").toList

/-- The domain stands in the path of a URL at another host. -/
theorem foreign_host_probed :
    (analyzeAndroidFirebaseMisconfig noLiterals ⟨"true", true, fun _ => some 200⟩ shopServices
      (some ⟨"shop".toList⟩)).1 = ["https://collect.example/firebaseio.com/.json".toList] ∧
    requestHost noLiterals "https://collect.example/firebaseio.com/.json".toList =
      some "collect.example".toList ∧
    ¬ IsFirebaseHost "collect.example".toList := by
  decide +kernel

end Morf.Apk
