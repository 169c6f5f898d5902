import Morf.Gate.Evaluate
import Morf.Lib.Machine

/-! `cmd/gate.go`: runs of `morf gate` and `morf gate allow` on one baseline file. -/

namespace Morf.Gate

open Morf.Lib Baseline

variable {S : Type}

def splitComma (input : List String) : List String :=
  (input.flatMap fun s => s.toList.splitOn ',').foldl (fun out tok =>
    let tok := String.ofList (Text.trimSpace tok)
    if tok = "" ∨ tok ∈ out then out else out ++ [tok]) []

def scanFailOn (failOn : String) : Option Policy :=
  match String.ofList ((Text.trimSpace failOn.toList).map Text.toLower) with
  | "" | "verified" => some .failOnNewVerified
  | "any" => some .failOnNewAny
  | "keep" => some .failOnTierKeep
  | "none" => some .none
  | _ => none

inductive ExitCode
  | ok
  | operational
  | policy
  deriving DecidableEq

structure AllowOptions where
  fingerprints : List String
  types : List String

structure GateOptions where
  updateBaseline : Bool
  failOn : String

/-- A missing file is an empty baseline; one that cannot be read is an error. -/
def loadBaselineOrEmpty : Option Text → Option Baseline
  | none => some newBaseline
  | some data => loadBaseline data

def runGateAllow (opts : AllowOptions) (file : Option Text) : Option Text :=
  let fps := splitComma opts.fingerprints
  let typs := splitComma opts.types
  if fps = [] ∧ typs = [] then none
  else
    (loadBaselineOrEmpty file).map fun base =>
      (typs.foldl allowType (fps.foldl allow base)).save

section

variable (fingerprint : Text → String)

def evaluateGate (opts : GateOptions) (secrets : List (SecretModel S)) (base : Baseline) :
    Option (GateResult S × ExitCode) :=
  (scanFailOn opts.failOn).map fun policy =>
    let res := evaluate fingerprint secrets (some base) policy
    (res, if res.failed then .policy else .ok)

def runGate (opts : GateOptions) (secrets : List (SecretModel S)) (file : Option Text) :
    ExitCode × Option Text :=
  match loadBaselineOrEmpty file with
  | none => (.operational, file)
  | some base =>
    match evaluateGate fingerprint opts secrets base with
    | none => (.operational, file)
    | some (_, code) =>
      if opts.updateBaseline then (.ok, some (baselineFromScan fingerprint secrets).save)
      else (code, file)

end

structure History where
  file : Option Text
  fingerprints : Finset String := ∅
  types : Finset String := ∅

inductive Command (S : Type)
  | allow (opts : AllowOptions)
  | gate (opts : GateOptions) (secrets : List (SecretModel S))

section

variable (fingerprint : Text → String)

def History.step (h : History) : Command S → History
  | .allow opts =>
    match runGateAllow opts h.file with
    | none => h
    | some file =>
      { file := some file
        fingerprints := h.fingerprints ∪ (splitComma opts.fingerprints).toFinset
        types := h.types ∪ (splitComma opts.types).toFinset }
  | .gate opts secrets => { h with file := (runGate fingerprint opts secrets h.file).2 }

def historyMachine (S : Type) (file : Option Text) : Machine History (Command S) where
  init := { file := file }
  step h c := some (h.step fingerprint c)

def History.accepted (h : History) (s : SecretModel S) : Bool :=
  fingerprint s.secretString ∈ h.fingerprints || s.secretType ∈ h.types

def History.Honoured (S : Type) (h : History) : Prop :=
  ∀ base, loadBaselineOrEmpty h.file = some base → ∀ (current : List (SecretModel S)) policy,
    (evaluate fingerprint current (some base) policy).failed = true →
      (evaluate fingerprint (current.filter (!h.accepted fingerprint ·)) (some base) policy).failed =
        true

/-- A run that rewrites the baseline has found every value with an accepted fingerprint, and every
value at all once a type is accepted. -/
def History.Covers (h : History) : Command S → Prop
  | .allow _ => True
  | .gate opts secrets =>
    opts.updateBaseline = true → (loadBaselineOrEmpty h.file).isSome = true →
    (scanFailOn opts.failOn).isSome = true →
      (∀ v, fingerprint v ∈ h.fingerprints → ∃ s ∈ secrets, fingerprint s.secretString = fingerprint v) ∧
      (h.types.Nonempty → ∀ v, ∃ s ∈ secrets, fingerprint s.secretString = fingerprint v)

variable {fingerprint}

theorem honoured_iff {h : History} : h.Honoured fingerprint S ↔
    ∀ base, loadBaselineOrEmpty h.file = some base → ∀ s : SecretModel S,
      h.accepted fingerprint s = true → isNew fingerprint (some base) s = false := by
  refine forall_congr' fun base => imp_congr_right fun _ => ⟨fun hf s hs => ?_, fun hk current policy => ?_⟩
  · -- the accepted finding alone, under the strictest policy
    rw [Bool.eq_false_iff]
    intro hn
    have hfail := hf [s] .failOnNewAny (failed_iff.mpr ⟨s, List.mem_singleton_self s, hn, rfl⟩)
    obtain ⟨s', hs', -⟩ := failed_iff.mp hfail
    simp [hs] at hs'
  · refine failed_mono fun s hs hn hg => ⟨s, List.mem_filter.mpr ⟨hs, ?_⟩, hn, hg⟩
    have hna : h.accepted fingerprint s ≠ true := fun ha => by simp [hk s ha] at hn
    simpa using hna

theorem foldl_allow (fps : List String) (b : Baseline) :
    fps.foldl allow b =
      { b with allowedFingerprints := b.allowedFingerprints ∪ fps.toFinset } := by
  induction fps generalizing b with
  | nil => simp
  | cons fp fps ih => rw [List.foldl_cons, ih]; simp [allow, Finset.insert_union]

theorem foldl_allowType (types : List String) (b : Baseline) :
    types.foldl allowType b =
      { b with allowedTypes := b.allowedTypes ∪ types.toFinset } := by
  induction types generalizing b with
  | nil => simp
  | cons t types ih => rw [List.foldl_cons, ih]; simp [allowType, Finset.insert_union]

theorem loadBaselineOrEmpty_save (b : Baseline) : loadBaselineOrEmpty (some b.save) = some b :=
  loadBaseline_save b

theorem runGateAllow_some (h : runGateAllow opts file = some data) :
    ∃ base, loadBaselineOrEmpty file = some base ∧
      data = save ⟨base.fingerprints,
        base.allowedFingerprints ∪ (splitComma opts.fingerprints).toFinset,
        base.allowedTypes ∪ (splitComma opts.types).toFinset⟩ := by
  simp only [runGateAllow] at h
  split at h
  case isTrue => cases h
  case isFalse =>
    obtain ⟨base, hb, rfl⟩ := Option.map_eq_some_iff.mp h
    exact ⟨base, hb, by rw [foldl_allow, foldl_allowType]⟩

def Rewrites (opts : GateOptions) (file : Option Text) : Prop :=
  opts.updateBaseline = true ∧ (loadBaselineOrEmpty file).isSome = true ∧
    (scanFailOn opts.failOn).isSome = true

theorem runGate_rewrites (h : Rewrites opts file) : (runGate fingerprint opts secrets file).2 =
      some (baselineFromScan fingerprint secrets).save := by
  obtain ⟨hu, hl, hp⟩ := h
  obtain ⟨base, hb⟩ := Option.isSome_iff_exists.mp hl
  obtain ⟨policy, hp⟩ := Option.isSome_iff_exists.mp hp
  simp [runGate, evaluateGate, hu, hb, hp]

theorem runGate_keeps (h : ¬ Rewrites opts file) :
    (runGate fingerprint opts secrets file).2 = file := by
  unfold runGate
  split
  · rfl
  case h_2 base hb =>
    split
    · rfl
    case h_2 res code hr =>
      obtain ⟨policy, hp, -⟩ := Option.map_eq_some_iff.mp hr
      rw [if_neg fun hu => h ⟨hu, by simp [hb], by simp [hp]⟩]

theorem isNew_eq_false_iff :
    isNew fingerprint (some b) s = false ↔ fingerprint s.secretString ∈ b.fingerprints ∨
      fingerprint s.secretString ∈ b.allowedFingerprints ∨ s.secretType ∈ b.allowedTypes := by
  simp only [isNew, isKnown, Bool.not_eq_false', Bool.or_eq_true, decide_eq_true_eq, or_assoc]

theorem accepted_iff {h : History} : h.accepted fingerprint s = true ↔
    fingerprint s.secretString ∈ h.fingerprints ∨ s.secretType ∈ h.types := by
  simp [History.accepted]

theorem honoured_allow {h : History} (hh : h.Honoured fingerprint S) (opts : AllowOptions) :
    (h.step fingerprint (.allow opts : Command S)).Honoured fingerprint S := by
  cases hr : runGateAllow opts h.file with
  | none => rwa [History.step, hr]
  | some data =>
    obtain ⟨base, hb, rfl⟩ := runGateAllow_some hr
    rw [History.step, hr, honoured_iff]
    intro base' hb' s hs
    rw [loadBaselineOrEmpty_save, Option.some.injEq] at hb'
    subst hb'
    have hold := honoured_iff.mp hh base hb s
    rw [accepted_iff, isNew_eq_false_iff] at hold
    simp only [accepted_iff, isNew_eq_false_iff, Finset.mem_union] at hs ⊢
    tauto

theorem isNew_baselineFromScan {secrets : List (SecretModel S)} {s : SecretModel S} :
    isNew fingerprint (some (baselineFromScan fingerprint secrets)) s = false ↔
      ∃ s' ∈ secrets, fingerprint s'.secretString = fingerprint s.secretString := by
  rw [isNew_eq_false_iff, mem_baselineFromScan]
  simp [baselineFromScan, newBaseline]

def findingOf (value : Text) (secretType : String) : SecretModel S :=
  { type := "", lineNo := 0, fileLocation := [], secretType := secretType, secretString := value,
    secretConfidence := "", masvsID := "" }

theorem honoured_rewritten_iff {h : History} {secrets : List (SecretModel S)} :
    History.Honoured fingerprint S { h with file := some (baselineFromScan fingerprint secrets).save } ↔
      (∀ v, fingerprint v ∈ h.fingerprints →
        ∃ s ∈ secrets, fingerprint s.secretString = fingerprint v) ∧
      (h.types.Nonempty → ∀ v, ∃ s ∈ secrets, fingerprint s.secretString = fingerprint v) := by
  simp only [honoured_iff, loadBaselineOrEmpty_save, Option.some.injEq, forall_eq', accepted_iff,
    isNew_baselineFromScan]
  constructor
  · intro hk
    exact ⟨fun v hv => hk (findingOf v "") (.inl hv), fun ⟨t, ht⟩ v => hk (findingOf v t) (.inr ht)⟩
  · rintro ⟨hfps, htypes⟩ s (hs | hs)
    · exact hfps _ hs
    · exact htypes ⟨_, hs⟩ _

theorem honoured_step_iff {h : History} (hh : h.Honoured fingerprint S) (c : Command S) :
    (h.step fingerprint c).Honoured fingerprint S ↔ h.Covers fingerprint c := by
  cases c with
  | allow opts => exact iff_of_true (honoured_allow hh opts) trivial
  | gate opts secrets =>
    by_cases hr : Rewrites opts h.file
    · rw [History.step, runGate_rewrites hr, honoured_rewritten_iff]
      exact ⟨fun hc _ _ _ => hc, fun hc => hc hr.1 hr.2.1 hr.2.2⟩
    · rw [History.step, runGate_keeps hr]
      exact iff_of_true hh fun hu hl hp => absurd ⟨hu, hl, hp⟩ hr

end

/-- What has been allowlisted stays accepted, along any sequence of runs, exactly if every run that
rewrites the baseline has found it. -/
theorem accepted_risk_stays_iff {S : Type} (fingerprint : Text → String) (file : Option Text)
    (commands : List (Command S)) :
    (historyMachine fingerprint S file).Along (fun _ _ h => h.Honoured fingerprint S)
        { file := file } commands ↔
      (historyMachine fingerprint S file).Along (fun h c _ => h.Covers fingerprint c)
        { file := file } commands := by
  have hstep : ∀ h c t, History.Honoured fingerprint S h →
      (historyMachine fingerprint S file).step h c = some t →
        (t.Honoured fingerprint S ↔ h.Covers fingerprint c) := by
    intro h c t hh ht
    obtain rfl := Option.some.inj ht
    exact honoured_step_iff hh c
  refine Machine.along_iff hstep (fun h c t hh ht hc => (hstep h c t hh ht).mpr hc) commands ?_
  -- nothing has been allowlisted yet
  exact honoured_iff.mpr fun base _ s hs => by simp [History.accepted] at hs

/-- A type is allowlisted, the baseline is rewritten from a scan without findings, and a build with
a finding of that type fails. -/
theorem update_drops_allowlist :
    ∃ h, (historyMachine String.ofList Unit none).exec { file := none }
        [.allow ⟨[], ["aws"]⟩, .gate ⟨true, "verified"⟩ []] = some h ∧
      h.accepted String.ofList awsKey = true ∧
      (runGate String.ofList ⟨false, "verified"⟩ [awsKey] h.file).1 = .policy := by
  have hallow : History.step String.ofList { file := none }
      (.allow ⟨[], ["aws"]⟩ : Command Unit) = ⟨some (save ⟨∅, ∅, {"aws"}⟩), ∅, {"aws"}⟩ := by
    have htypes : splitComma ["aws"] = ["aws"] := by decide
    have hnone : splitComma [] = [] := rfl
    have hrun : runGateAllow ⟨[], ["aws"]⟩ none = some (save ⟨∅, ∅, {"aws"}⟩) := by
      simp only [runGateAllow, htypes, hnone]
      rfl
    rw [History.step, hrun]
    simp [htypes, hnone]
  have hpolicy : scanFailOn "verified" = some .failOnNewVerified := by decide
  have hgate : (runGate String.ofList ⟨true, "verified"⟩ ([] : List (SecretModel Unit))
      (some (save ⟨∅, ∅, {"aws"}⟩))).2 = some newBaseline.save :=
    runGate_rewrites ⟨rfl, by rw [loadBaselineOrEmpty_save]; rfl, by rw [hpolicy]; rfl⟩
  refine ⟨⟨some newBaseline.save, ∅, {"aws"}⟩, ?_, by decide, ?_⟩
  · simp only [Machine.exec, historyMachine, Option.bind_some, hallow]
    rw [History.step, hgate]
  · simp only [runGate, loadBaselineOrEmpty_save, evaluateGate, hpolicy, Option.map_some]
    decide

end Morf.Gate
