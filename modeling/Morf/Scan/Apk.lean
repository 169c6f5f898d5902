import Morf.Detect.Precision
import Morf.Detect.Rules
import Morf.Scan.Resolve
import Morf.Scan.Workspace
import Morf.Scan.ZipGuard

/-! `scanAPK` of `worker/worker.go` with `StartSecScanE` and `StartScanE` of
`apk/scanner.go`: what has run when a scan returns a report. -/

namespace Morf.Scan

open Morf.Lib Morf.Detect Body

/-- What a scan meets on its way.  `S` is a score, `M` the metadata of the app and `R` a stored
result. -/
structure ApkScan (S M R : Type) where
  workspace : Option String := none
  cancelled : Bool := false
  localPath : Except ResolveError (List Char)
  limits : ZipLimits
  archive : Except String (List ZipEntry)
  database : Bool := false
  /-- The row of the same hash, and whether it parses. -/
  duplicate : Option (Except String R) := none
  metadata : Except String M
  sources : Option RunError := none
  resources : Option RunError := none
  textPass : Pass
  binaryPass : Pass
  maxFileSizeMB : Int := 50
  jwtIsPublicCert : Text → Bool
  precisionScore : Text → S
  verifySecrets : List (SecretModel S) → List (SecretModel S)
  marshal : Option String := none

inductive SecScanError
  | unsafeArchive (e : ZipError)
  | decompilation (sources resources : Option RunError)
  | patternScan (e : CorpusError)

inductive ApkError
  | workspace (e : String)
  | cancelled
  | resolve (e : ResolveError)
  | safety (e : ZipError)
  | metadata (e : String)
  | secretScan (e : SecScanError)
  | marshal (e : String)

inductive ApkResult (S M R : Type)
  | duplicate (r : R)
  | report (metadata : M) (secrets : List (SecretModel S))

variable (E : Engine)

def textRoots (u : Uuid) : List Text := [getSourceDir u, getResDir u]

def androidBinaryRoots (u : Uuid) : List Text := [getSourceDir u]

def androidBinaryExcludes : List String :=
  ["-g", "!**/smali*/**", "-g", "!**/res/**", "-g", "!**/original/**"]

def startScanE (scan : ApkScan S M R) (u : Uuid) :
    Body (List Invocation) CorpusError (List (SecretModel S)) := do
  let textSecrets ← scanCorpusPass E scan.textPass (textRoots u) .android
  let binSecrets ← scanCorpusText E scan.binaryPass (androidBinaryRoots u) .android
    androidBinaryExcludes scan.maxFileSizeMB
  return textSecrets ++ binSecrets

def startSecScanE (scan : ApkScan S M R) (u : Uuid) :
    Body (List Invocation) SecScanError (List (SecretModel S)) := do
  .lift ((checkAPKSafe scan.limits scan.archive).mapError .unsafeArchive)
  .lift (reject (scan.sources.isSome || scan.resources.isSome)
    (.decompilation scan.sources scan.resources))
  let rawSecrets ← (startScanE E scan u).wrap .patternScan
  return sanitizeSecrets rawSecrets

def ApkScan.known (scan : ApkScan S M R) : Option R :=
  if scan.database then
    match scan.duplicate with
    | some (.ok r) => some r
    | some (.error _) | none => none
  else none

def fullScan (scan : ApkScan S M R) (u : Uuid) :
    Body (List Invocation) ApkError (ApkResult S M R) := do
  let metadata ← .lift (scan.metadata.mapError .metadata)
  let scannerData ← (startSecScanE E scan u).wrap .secretScan
  let secrets := scan.verifySecrets
    (applyPrecision scan.jwtIsPublicCert scan.precisionScore scannerData)
  .raise (scan.marshal.map .marshal)
  return .report metadata secrets

/-- The state is the list of the runs of ripgrep so far. -/
def scanAPK (scan : ApkScan S M R) (u : Uuid) :
    Body (List Invocation) ApkError (ApkResult S M R) := do
  .raise (scan.workspace.map .workspace)
  .lift (reject scan.cancelled .cancelled)
  let _ ← .lift (scan.localPath.mapError .resolve)
  .lift ((checkAPKSafe scan.limits scan.archive).mapError .safety)
  match scan.known with
  | some r => return .duplicate r
  | none => fullScan E scan u

section Report

variable {E : Engine} {scan : ApkScan S M R}

theorem scanCorpusWithOpts_mono {pass : Pass}
    (h : scanCorpusWithOpts E pass roots .android opts s = (.ok r, s')) :
    s.1 ⊆ s'.1 ∧ s.2 = s'.2 := by
  rcases scanCorpusWithOpts_ok h with ⟨-, rfl⟩ | ⟨-, rfl⟩ | ⟨run, -, rfl⟩
  · exact ⟨List.Subset.refl _, rfl⟩
  · exact ⟨List.Subset.refl _, rfl⟩
  · exact ⟨List.subset_append_left _ _, rfl⟩

theorem startSecScanE_ok (h : startSecScanE E scan u s = (.ok r, s')) :
    ∃ (r' : List (SecretModel S)) (t : _),
      scanCorpusPass E scan.textPass (textRoots u) .android s = (.ok r', t) ∧ t.1 ⊆ s'.1 ∧
        t.2 = s'.2 := by
  obtain ⟨_, s₁, h₁, h⟩ := bind_ok.mp h
  obtain ⟨-, rfl⟩ := lift_ok.mp h₁
  obtain ⟨_, s₂, h₂, h⟩ := bind_ok.mp h
  obtain ⟨-, rfl⟩ := lift_ok.mp h₂
  obtain ⟨raw, s₃, h₃, h⟩ := bind_ok.mp h
  obtain ⟨-, rfl⟩ := pure_ok.mp h
  obtain ⟨text, t, htext, h⟩ := bind_ok.mp (wrap_ok.mp h₃)
  obtain ⟨bin, t', hbin, h⟩ := bind_ok.mp h
  obtain ⟨-, rfl⟩ := pure_ok.mp h
  exact ⟨text, t, htext, scanCorpusWithOpts_mono hbin⟩

/-- A report comes after a text pass without an error, whose runs it keeps. -/
theorem scanAPK_report (h : scanAPK E scan u s = (.ok (.report metadata secrets), s')) :
    ∃ (r : List (SecretModel S)) (t : _),
      scanCorpusPass E scan.textPass (textRoots u) .android s = (.ok r, t) ∧ t.1 ⊆ s'.1 ∧
        t.2 = s'.2 := by
  obtain ⟨_, s₁, h₁, h⟩ := bind_ok.mp h
  obtain ⟨-, rfl⟩ := raise_ok.mp h₁
  obtain ⟨_, s₂, h₂, h⟩ := bind_ok.mp h
  obtain ⟨-, rfl⟩ := lift_ok.mp h₂
  obtain ⟨_, s₃, h₃, h⟩ := bind_ok.mp h
  obtain ⟨-, rfl⟩ := lift_ok.mp h₃
  obtain ⟨_, s₄, h₄, h⟩ := bind_ok.mp h
  obtain ⟨-, rfl⟩ := lift_ok.mp h₄
  cases hk : scan.known with
  | some r =>
    rw [hk] at h
    cases (pure_ok.mp h).1
  | none =>
  rw [hk] at h
  obtain ⟨_, s₅, h₅, h⟩ := bind_ok.mp h
  obtain ⟨-, rfl⟩ := lift_ok.mp h₅
  obtain ⟨_, s₆, h₆, h⟩ := bind_ok.mp h
  obtain ⟨_, s₇, h₇, h⟩ := bind_ok.mp h
  obtain ⟨-, rfl⟩ := raise_ok.mp h₇
  obtain ⟨-, rfl⟩ := pure_ok.mp h
  exact startSecScanE_ok (wrap_ok.mp h₆)

/-- A report means that the text pass had no pattern, had no directory, or ran ripgrep with
patterns over existing directories to exit status 0 or 1. -/
theorem report_earned {files : List RuleFile} {now : Nat} {runs : List Invocation}
    (hr : (Rules.machine E files now).Reach Machine.anyStep (Rules.machine E files now).init
      scan.textPass.rules)
    (h : (scanAPK E scan u).call [] = (.ok (.report metadata secrets), runs)) :
    (∃ e, (getPatternCache E scan.textPass.rules.files scan.textPass.rules.caches .android).1 =
      .error e) ∨
    (∀ d ∈ textRoots u, scan.textPass.isDir d = false) ∨
    ∃ run ∈ runs, run.opts.text = false ∧ run.patterns.cache.patterns ≠ [] ∧ run.roots ≠ [] ∧
      (∀ d ∈ run.roots, d ∈ textRoots u ∧ scan.textPass.isDir d = true) ∧
      run.process.started = true ∧ (run.process.status = 0 ∨ run.process.status = 1) := by
  obtain ⟨s', hs', rfl⟩ := call_ok.mp h
  obtain ⟨r, t, hpass, hsub, hdef⟩ := scanAPK_report hs'
  rcases scanCorpusWithOpts_ok hpass with ⟨he, -⟩ | ⟨hroots, -⟩ | ⟨run, hrun, rfl⟩
  · exact .inl he
  · exact .inr (.inl (by simpa using hroots))
  · rw [← hdef]
    refine .inr (.inr ⟨run, hsub (by simp), by rw [hrun.opts_eq],
      (Rules.loaded_of_reach hr).get hrun.patterns_eq, hrun.roots_ne, fun d hd => ?_,
      hrun.started, hrun.status⟩)
    rw [hrun.roots_eq] at hd
    exact List.mem_filter.mp hd

end Report

def plainScan (rules : Rules) (isDir : Text → Bool) : ApkScan Unit Unit Unit where
  localPath := .ok "/data/app.apk".toList
  limits := defaultLimits
  archive := .ok [dexEntry]
  metadata := .ok ()
  textPass := { rules, isDir, patternFile := .ok "/tmp/patterns.txt", process := { status := 1 } }
  binaryPass := { rules, isDir, patternFile := .ok "/tmp/patterns.txt", process := { status := 1 } }
  jwtIsPublicCert _ := false
  precisionScore _ := ()
  verifySecrets := id

def awsRules : List RuleFile := [Rules.ruleFile "aws.yaml" ["AKIA"] 1]

def searchedScan : ApkScan Unit Unit Unit :=
  plainScan { files := awsRules, now := 1 } fun _ => true

theorem searched_report_earned :
    ∃ runs, (scanAPK Rules.literalEngine searchedScan jobA).call [] = (.ok (.report () []), runs) ∧
      ∃ run ∈ runs, run.opts.text = false ∧ run.patterns.cache.patterns ≠ [] ∧ run.roots ≠ [] ∧
        run.process.started = true ∧ (run.process.status = 0 ∨ run.process.status = 1) := by
  have hr : (Rules.machine Rules.literalEngine awsRules 1).Reach Machine.anyStep
      (Rules.machine Rules.literalEngine awsRules 1).init searchedScan.textPass.rules := .refl
  obtain ⟨runs, h⟩ : ∃ runs, (scanAPK Rules.literalEngine searchedScan jobA).call [] =
      (.ok (.report () []), runs) := ⟨_, rfl⟩
  refine ⟨runs, h, ?_⟩
  rcases report_earned hr h with
    ⟨e, he⟩ | hdir | ⟨run, hrun, htext, hpat, hroots, -, hend⟩
  · cases he
  · exact absurd (hdir (getSourceDir jobA) List.mem_cons_self) nofun
  · exact ⟨run, hrun, htext, hpat, hroots, hend⟩

/-- Without patterns, and without the decompiled directories, the report is empty although
ripgrep has never run. -/
theorem unearned_report :
    (scanAPK Rules.literalEngine (plainScan { files := [], now := 1 } fun _ => true) jobA).call [] =
      (.ok (.report () []), []) ∧
    (scanAPK Rules.literalEngine (plainScan { files := awsRules, now := 1 } fun _ => false)
      jobA).call [] = (.ok (.report () []), []) :=
  ⟨rfl, rfl⟩

end Morf.Scan
