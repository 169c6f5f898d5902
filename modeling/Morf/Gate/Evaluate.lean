import Morf.Detect.Findings
import Morf.Gate.Baseline

/-! `gate/gate.go`: the findings of a build against a baseline. -/

namespace Morf.Gate

open List

structure SecretModel (S : Type) extends Detect.SecretModel S where
  verificationStatus : String := ""

def statusActive : String := "active"

def tierKeep : String := "keep"

def knownPolicies : List String := ["new_verified", "new_any", "new_tier_keep", "none", ""]

inductive Policy
  | failOnNewVerified
  | failOnNewAny
  | failOnTierKeep
  | none
  | empty
  | other (text : String) (foreign : text ∉ knownPolicies)
  deriving DecidableEq

def Policy.text : Policy → String
  | .failOnNewVerified => "new_verified"
  | .failOnNewAny => "new_any"
  | .failOnTierKeep => "new_tier_keep"
  | .none => "none"
  | .empty => ""
  | .other text _ => text

def defaultPolicy : Policy := .failOnNewVerified

section

variable {S : Type} (fingerprint : Text → String)

def baselineFromScan (current : List (SecretModel S)) : Baseline :=
  { newBaseline with
    fingerprints := current.foldl (fun fps s => insert (fingerprint s.secretString) fps) ∅ }

structure GateResult (S : Type) where
  newFindings : List (SecretModel S)
  newVerified : List (SecretModel S)
  failed : Bool
  reason : String

structure Diff (S : Type) where
  newFindings : List (SecretModel S) := []
  newVerified : List (SecretModel S) := []
  newTierKeep : Nat := 0

def Diff.visit (base : Option Baseline) (res : Diff S) (s : SecretModel S) : Diff S :=
  if Baseline.isKnown base (fingerprint s.secretString) s.secretType then res
  else
    { newFindings := res.newFindings ++ [s]
      newVerified := if s.verificationStatus = statusActive then res.newVerified ++ [s]
        else res.newVerified
      newTierKeep := if s.tier = tierKeep then res.newTierKeep + 1 else res.newTierKeep }

def detected (n : Nat) (what : String) (policy : Policy) : String :=
  toString n ++ " new " ++ what ++ "finding(s) detected (policy=" ++ policy.text ++ ")"

def evaluate (current : List (SecretModel S)) (base : Option Baseline) (policy : Policy) :
    GateResult S :=
  let policy := if policy = .empty then defaultPolicy else policy
  let res := current.foldl (Diff.visit fingerprint base) {}
  let news := res.newFindings.length
  let verified := res.newVerified.length
  match policy with
  | .failOnNewAny =>
    { newFindings := res.newFindings
      newVerified := res.newVerified
      failed := 0 < news
      reason := if 0 < news then detected news "" policy else "no new findings" }
  | .failOnTierKeep =>
    { newFindings := res.newFindings
      newVerified := res.newVerified
      failed := 0 < res.newTierKeep
      reason := if 0 < res.newTierKeep then detected res.newTierKeep "keep-tier " policy
        else "no new keep-tier findings" }
  | .none =>
    { newFindings := res.newFindings
      newVerified := res.newVerified
      failed := false
      reason := "gate disabled (policy=" ++ policy.text ++ "); " ++ toString news ++
        " new finding(s), " ++ toString verified ++ " new verified" }
  | _ =>
    { newFindings := res.newFindings
      newVerified := res.newVerified
      failed := 0 < verified
      reason := if 0 < verified then detected verified "verified-active " policy
        else "no new verified-active findings" }

def Policy.gates (p : Policy) (s : SecretModel S) : Bool :=
  match p with
  | .failOnNewAny => true
  | .failOnTierKeep => s.tier = tierKeep
  | .none => false
  | _ => s.verificationStatus = statusActive

def isNew (base : Option Baseline) (s : SecretModel S) : Bool :=
  !Baseline.isKnown base (fingerprint s.secretString) s.secretType

variable {fingerprint} {current current' : List (SecretModel S)}

theorem foldl_visit (res : Diff S) :
    current.foldl (Diff.visit fingerprint base) res =
      { newFindings := res.newFindings ++ current.filter (isNew fingerprint base)
        newVerified := res.newVerified ++
          (current.filter (isNew fingerprint base)).filter (·.verificationStatus = statusActive)
        newTierKeep := res.newTierKeep +
          (current.filter (isNew fingerprint base)).countP (·.tier = tierKeep) } := by
  induction current generalizing res with
  | nil => simp
  | cons s current ih =>
    rw [foldl_cons, ih, Diff.visit]
    by_cases hk : Baseline.isKnown base (fingerprint s.secretString) s.secretType = true
    · simp [isNew, hk]
    · have hn : isNew fingerprint base s = true := by simp [isNew, hk]
      by_cases hv : s.verificationStatus = statusActive <;> by_cases ht : s.tier = tierKeep <;>
        simp [hk, hn, hv, ht, Nat.add_assoc, Nat.add_comm 1]

theorem failed_iff : (evaluate fingerprint current base policy).failed = true ↔
    ∃ s ∈ current, isNew fingerprint base s = true ∧ policy.gates s = true := by
  cases policy <;>
    simp [evaluate, foldl_visit, Policy.gates, defaultPolicy, length_pos_iff_exists_mem,
      and_assoc, -filter_filter]

theorem failed_mono (h : ∀ s ∈ current, isNew fingerprint base s = true → policy.gates s = true →
      ∃ s' ∈ current', isNew fingerprint base' s' = true ∧ policy'.gates s' = true)
    (hf : (evaluate fingerprint current base policy).failed = true) :
    (evaluate fingerprint current' base' policy').failed = true := by
  obtain ⟨s, hs, hn, hg⟩ := failed_iff.mp hf
  exact failed_iff.mpr (h s hs hn hg)

theorem failed_of_subset (h : current ⊆ current')
    (hf : (evaluate fingerprint current base policy).failed = true) :
    (evaluate fingerprint current' base policy).failed = true :=
  failed_mono (fun s hs hn hg => ⟨s, h hs, hn, hg⟩) hf

theorem failed_congr (h : ∀ s, s ∈ current ↔ s ∈ current') :
    (evaluate fingerprint current base policy).failed =
      (evaluate fingerprint current' base policy).failed :=
  Bool.eq_iff_iff.mpr ⟨failed_of_subset fun s => (h s).mp, failed_of_subset fun s => (h s).mpr⟩

def Moved (s s' : SecretModel S) : Prop :=
  ∃ (file : Text) (line : Int), s' = { s with fileLocation := file, lineNo := line }

theorem Moved.symm (h : Moved s s') : Moved s' s := by
  obtain ⟨file, line, rfl⟩ := h
  exact ⟨s.fileLocation, s.lineNo, rfl⟩

theorem exists_moved (h : Forall₂ Moved current current') (hs : s ∈ current) :
    ∃ s' ∈ current', Moved s s' := by
  induction h with
  | nil => cases hs
  | cons hm _ ih =>
    rcases mem_cons.mp hs with rfl | hs
    · exact ⟨_, mem_cons_self, hm⟩
    · obtain ⟨s', hs', hm'⟩ := ih hs
      exact ⟨s', mem_cons_of_mem _ hs', hm'⟩

theorem failed_of_moved (h : Forall₂ Moved current current')
    (hf : (evaluate fingerprint current base policy).failed = true) :
    (evaluate fingerprint current' base policy).failed = true := by
  refine failed_mono (fun s hs hn hg => ?_) hf
  obtain ⟨s', hs', file, line, rfl⟩ := exists_moved h hs
  exact ⟨_, hs', hn, hg⟩

theorem isNew_of_le (h : b ≤ b') (hn : isNew fingerprint (some b') s = true) :
    isNew fingerprint (some b) s = true := by
  simp only [isNew, Baseline.isKnown, Bool.not_eq_true', Bool.or_eq_false_iff,
    decide_eq_false_iff_not] at hn ⊢
  exact ⟨⟨fun hs => hn.1.1 (h.1 hs), fun hs => hn.1.2 (h.2.1 hs)⟩, fun hs => hn.2 (h.2.2 hs)⟩

theorem mem_baselineFromScan :
    fp ∈ (baselineFromScan fingerprint current).fingerprints ↔
      ∃ s ∈ current, fingerprint s.secretString = fp := by
  have h (fps : Finset String) :
      fp ∈ current.foldl (fun fps s => insert (fingerprint s.secretString) fps) fps ↔
        (∃ s ∈ current, fingerprint s.secretString = fp) ∨ fp ∈ fps := by
    induction current generalizing fps with
    | nil => simp
    | cons s current ih =>
      rw [foldl_cons, ih]
      simp [or_assoc, or_left_comm, eq_comm]
  simpa [baselineFromScan] using h ∅

theorem not_failed_of_subset
    (h : (baselineFromScan fingerprint current).fingerprints ⊆ b.fingerprints) :
    (evaluate fingerprint current (some b) policy).failed = false := by
  rw [Bool.eq_false_iff]
  intro hf
  obtain ⟨s, hs, hn, -⟩ := failed_iff.mp hf
  have hb : fingerprint s.secretString ∈ b.fingerprints := h (mem_baselineFromScan.mpr ⟨s, hs, rfl⟩)
  simp [isNew, Baseline.isKnown, hb] at hn

end

def Within : Option Baseline → Option Baseline → Prop
  | none, _ => True
  | some b, some b' => b ≤ b'
  | some _, none => False

theorem isNew_of_within {s : SecretModel S} (h : Within base base')
    (hn : isNew fingerprint base' s = true) : isNew fingerprint base s = true := by
  match base, base', h with
  | none, _, _ => rfl
  | some b, some b', h => exact isNew_of_le h hn

/-- The gate is a sound diff, for every way to compute a fingerprint from a value. -/
theorem evaluate_sound_diff {S : Type} (fingerprint : Text → String) :
    (∀ (current : List (SecretModel S)) (b : Baseline) (policy : Policy),
      (baselineFromScan fingerprint current).fingerprints ⊆ b.fingerprints →
        (evaluate fingerprint current (some b) policy).failed = false ∧
        ∃ b', loadBaseline b.save = some b' ∧
          (evaluate fingerprint current (some b') policy).failed = false) ∧
    ∀ (current : List (SecretModel S)) (base : Option Baseline) (policy : Policy),
      (∀ current', current.Perm current' →
        (evaluate fingerprint current' base policy).failed =
          (evaluate fingerprint current base policy).failed) ∧
      (∀ current', current.Sublist current' → current' ⊆ current →
        (evaluate fingerprint current' base policy).failed =
          (evaluate fingerprint current base policy).failed) ∧
      (∀ current', List.Forall₂ Moved current current' →
        (evaluate fingerprint current' base policy).failed =
          (evaluate fingerprint current base policy).failed) ∧
      ((evaluate fingerprint current base policy).failed = false →
        (∀ base', Within base base' → (evaluate fingerprint current base' policy).failed = false) ∧
        ∀ current', current'.Sublist current →
          (evaluate fingerprint current' base policy).failed = false) ∧
      ((evaluate fingerprint current base .failOnNewVerified).failed = true ∨
          (evaluate fingerprint current base .failOnTierKeep).failed = true →
        (evaluate fingerprint current base .failOnNewAny).failed = true) := by
  refine ⟨fun current b policy h => ⟨not_failed_of_subset h, b, loadBaseline_save b,
    not_failed_of_subset h⟩, fun current base policy => ⟨?perm, ?duplicated, ?moved, ?smaller, ?any⟩⟩
  case perm => exact fun current' h => failed_congr fun s => h.mem_iff.symm
  case duplicated =>
    exact fun current' h h' => failed_congr fun s => ⟨fun hs => h' hs, fun hs => h.subset hs⟩
  case moved =>
    intro current' h
    have h' : Forall₂ Moved current' current := (h.imp fun _ _ => Moved.symm).flip
    exact Bool.eq_iff_iff.mpr ⟨failed_of_moved h', failed_of_moved h⟩
  case smaller =>
    simp only [← Bool.not_eq_true]
    intro hf
    refine ⟨fun base' hb hf' => hf ?_, fun current' hs hf' => hf (failed_of_subset hs.subset hf')⟩
    exact failed_mono (fun s hs hn hg => ⟨s, hs, isNew_of_within hb hn, hg⟩) hf'
  case any =>
    rintro (hf | hf) <;> exact failed_mono (fun s hs hn _ => ⟨s, hs, hn, rfl⟩) hf

def awsKey : SecretModel Unit :=
  { type := "SECRET", lineNo := 42, fileLocation := "src/config.go".toList, secretType := "aws",
    secretString := "AKIA".toList, secretConfidence := "high", masvsID := "", tier := "keep",
    verificationStatus := "active" }

theorem accepted_scan_passes :
    (baselineFromScan String.ofList [awsKey]).fingerprints ⊆
        (baselineFromScan String.ofList [awsKey]).fingerprints ∧
      (evaluate String.ofList [awsKey] (some (baselineFromScan String.ofList [awsKey]))
        .failOnNewAny).failed = false :=
  ⟨Finset.Subset.refl _,
    ((evaluate_sound_diff String.ofList).1 [awsKey] _ .failOnNewAny (Finset.Subset.refl _)).1⟩

end Morf.Gate
