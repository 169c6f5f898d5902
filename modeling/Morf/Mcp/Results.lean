import Morf.Lib.Histogram
import Morf.Report.Render

/-! `get_results` of `mcp/server.go`: the summary of a file that a scan wrote. -/

namespace Morf.Mcp

open Morf.Lib Morf.Lib.Json Morf.Lib.Histogram Morf.Report
open Option
open List hiding lookup asString

structure Counts where
  total : Nat
  byTier : List (List Char × Nat)
  byStatus : List (List Char × Nat)
  byType : List (List Char × Nat)
  deriving DecidableEq

def tierOf (s : SecretModel N) : String := if s.tier = "" then "unclassified" else s.tier

def statusOf (s : SecretModel N) : String :=
  if s.verificationStatus = "" then "unchecked" else s.verificationStatus

def typeOf (s : SecretModel N) : String :=
  let typ := if s.secretType = "" then s.type else s.secretType
  if typ = "" then "unknown" else typ

def count (secrets : List (SecretModel N)) : Counts where
  total := secrets.length
  byTier := tally (secrets.map fun s => (tierOf s).toList)
  byStatus := tally (secrets.map fun s => (statusOf s).toList)
  byType := tally (secrets.map fun s => (typeOf s).toList)

def formatCounts (m : List (List Char × Nat)) : List Char :=
  intercalate ", ".toList (m.map fun p => p.1 ++ '=' :: Nat.toDigits 10 p.2)

structure Summary where
  target : List Char
  platform : List Char
  counts : Counts

def summarize (target platform : List Char) (secrets : List (SecretModel N)) : Summary :=
  ⟨target, platform, count secrets⟩

def Summary.text (s : Summary) : List Char :=
  "MORF scan of ".toList ++ s.target ++ " (".toList ++ s.platform ++ "): ".toList ++
    Nat.toDigits 10 s.counts.total ++ " finding(s)".toList ++
    if s.counts.total = 0 then []
    else
      "\n  by tier: ".toList ++ formatCounts s.counts.byTier ++
      "\n  by verification: ".toList ++ formatCounts s.counts.byStatus ++
      "\n  by type: ".toList ++ formatCounts s.counts.byType

def filepathBase (p : List Char) : List Char :=
  (p.reverse.takeWhile fun c => decide (c ≠ '/' ∧ c ≠ '\\')).reverse

inductive Format
  | json | sarif

def Format.name : Format → String
  | .json => "json"
  | .sarif => "sarif"

inductive ResultError
  | notJSON
  | missingKeys
  | masking (err : UnmarshalError)
  | maskedJSON
  | sarif
  | noRuns

structure Answer where
  summary : Summary
  format : Format
  source : List Char
  findings : List Json

def Answer.body (a : Answer) : List Char :=
  indent 0 (.object [("findings".toList, .array a.findings), field "format" a.format.name.toList,
    field "source" a.source, field "summary" a.summary.text])

def sniffResultFormat (raw : List Char) : Except ResultError Format :=
  match (parse raw).bind fun v => mapFrom [] [v] with
  | none => .error .notJSON
  | some top =>
    if (lookup "runs" top).isSome then .ok .sarif
    else if (lookup "data" top).isSome then .ok .json
    else .error .missingKeys

section JsonFile

variable (N : Numbers)

def readScore : Json → Option (Option (Score N))
  | .number x =>
    match h : N.canon x with
    | none => none
    | some y =>
      if hy : y ∈ ["0".toList, "-0".toList] then some none
      else some (some ⟨y, N.canon_canon h, hy⟩)
  | _ => none

def readString (name : String) (ms : Members) : Option String :=
  (textFrom (received name ms)).map String.ofList

def readSecret (v : Json) : Option (SecretModel N) := do
  let ms ← structFrom [v]
  let type ← readString "type" ms
  let lineNo ← intFrom (received "lineNo" ms)
  let fileLocation ← textFrom (received "fileLocation" ms)
  let secretType ← readString "secretType" ms
  let secretString ← textFrom (received "secretString" ms)
  let secretConfidence ← readString "secretConfidence" ms
  let score ← scalarFrom (readScore N) none (received "score" ms)
  let tier ← readString "tier" ms
  let verificationStatus ← readString "verificationStatus" ms
  let masvsID ← readString "masvsId" ms
  return {
    type := type, lineNo := lineNo, fileLocation := fileLocation, secretType := secretType
    secretString := secretString, secretConfidence := secretConfidence, score := score
    tier := tier, verificationStatus := verificationStatus, masvsID := masvsID }

structure Envelope where
  target : List Char
  platform : List Char
  secrets : List (SecretModel N)

def readEnvelope (v : Json) : Option (Envelope N) := do
  let data ← structFrom (received "data" (← structFrom [v]))
  let target ← textFrom (received "target" data)
  let platform ← textFrom (received "platform" data)
  let secrets ← sliceFrom (readSecret N) [] (received "secrets" data)
  return ⟨target, platform, secrets⟩

def maskedFinding (s : SecretModel N) : Json :=
  .object ([field "secretType" (if s.secretType = "" then s.type else s.secretType).toList,
    field "secretString" s.secretString, field "fileLocation" s.fileLocation] ++
    (if s.lineNo = 0 then [] else [("lineNo".toList, .number (integer s.lineNo))]) ++
    omitEmpty "tier" s.tier.toList ++ omitEmpty "verificationStatus" s.verificationStatus.toList ++
    scoreMember s.score)

def handleJSONResults (path raw : List Char) : Except ResultError Answer :=
  match maskResultJSON N raw with
  | .error err => .error (.masking err)
  | .ok masked =>
    match (parse masked).bind (readEnvelope N) with
    | none => .error .maskedJSON
    | some env =>
      let target := if env.target = [] then filepathBase path else env.target
      let platform := if env.platform = [] then "unknown".toList else env.platform
      .ok ⟨summarize target platform env.secrets, .json, path, env.secrets.map (maskedFinding N)⟩

end JsonFile

structure SarifResult where
  ruleID : List Char
  level : List Char
  properties : Members

structure SarifRun where
  results : List SarifResult
  properties : Members

def readRule (v : Json) : Option (List Char) := do
  textFrom (received "id" (← structFrom [v]))

def readResult (v : Json) : Option SarifResult := do
  let ms ← structFrom [v]
  let ruleID ← textFrom (received "ruleId" ms)
  let level ← textFrom (received "level" ms)
  let properties ← mapFrom [] (received "properties" ms)
  return ⟨ruleID, level, properties⟩

def readRun (v : Json) : Option SarifRun := do
  let ms ← structFrom [v]
  let driver ← structFrom (received "driver" (← structFrom (received "tool" ms)))
  let _ ← sliceFrom readRule [] (received "rules" driver)
  let results ← sliceFrom readResult [] (received "results" ms)
  let properties ← mapFrom [] (received "properties" ms)
  return ⟨results, properties⟩

def readSarif (v : Json) : Option (List SarifRun) := do
  sliceFrom readRun [] (received "runs" (← structFrom [v]))

def property (k : String) (old : List Char) (properties : Members) : List Char :=
  ((lookup k properties).bind asString).getD old

def tierOfLevel (level : List Char) : String :=
  if level = "error".toList then "keep" else if level = "note".toList then "info" else ""

def syntheticSecret (N : Numbers) (secretType tier verificationStatus : String) : SecretModel N :=
  { type := "", lineNo := 0, fileLocation := [], secretType, secretString := []
    secretConfidence := "", masvsID := "", tier, verificationStatus }

def sarifSecret (N : Numbers) (r : SarifResult) : SecretModel N :=
  syntheticSecret N (String.ofList r.ruleID) (tierOfLevel r.level)
    (String.ofList (property "verificationStatus" [] r.properties))

def sarifFindingPreview (r : SarifResult) : Json :=
  .object [field "ruleId" r.ruleID, field "level" r.level]

def handleSARIFResults (N : Numbers) (path raw : List Char) : Except ResultError Answer :=
  match (parse raw).bind readSarif with
  | none => .error .sarif
  | some [] => .error .noRuns
  | some (run :: _) =>
    let target := property "target" [] run.properties
    let target := if target = [] then filepathBase path else target
    let platform := property "platform" "unknown".toList run.properties
    .ok ⟨summarize target platform (run.results.map (sarifSecret N)), .sarif, path,
      run.results.map sarifFindingPreview⟩

/-- The handler, for the content of the file at `path`. -/
def getResults (N : Numbers) (path raw : List Char) : Except ResultError Answer :=
  match sniffResultFormat raw with
  | .error err => .error err
  | .ok .json => handleJSONResults N path raw
  | .ok .sarif => handleSARIFResults N path raw

section SarifSummary

variable (target platform : List Char)

end SarifSummary

section JsonSummary

variable {s : SecretModel N}

def secretTexts (s : SecretModel N) : List (String × List Char) :=
  [("type", s.type.toList), ("fileLocation", s.fileLocation), ("secretType", s.secretType.toList),
    ("secretConfidence", s.secretConfidence.toList), ("tier", s.tier.toList),
    ("verificationStatus", s.verificationStatus.toList), ("masvsId", s.masvsID.toList)]

structure Holds (s : SecretModel N) (ms : Members) : Prop where
  texts : ∀ p ∈ secretTexts s, textFrom (received p.1 ms) = some p.2
  lineNo : ∃ y, N.canon (integer s.lineNo) = some y ∧ received "lineNo" ms = [.number y]
  secretString : ∃ t, received "secretString" ms = [.string t]
  score : scalarFrom (readScore N) none (received "score" ms) = some s.score

theorem Holds.adjust (h : Holds s ms) (hms : Sorted ms) (f : List Char → List Char) :
    Holds s (adjust "secretString".toList (onString f) ms) where
  texts p hp := by
    have hnames : ∀ p ∈ secretTexts s, sameName "secretString".toList p.1.toList = false := by
      simp only [secretTexts, forall_mem_cons]
      decide
    rw [received_adjust_of_other (hnames p hp)]
    exact h.texts p hp
  lineNo := by
    rw [received_adjust_of_other (by decide)]
    exact h.lineNo
  secretString := received_adjust_string hms f h.secretString
  score := by
    rw [received_adjust_of_other (by decide)]
    exact h.score

def lineAgain (N : Numbers) (n : Int) : Option Int := (N.canon (integer n)).bind Text.atoi

theorem readString_of_textFrom (h : textFrom (received name ms) = some t.toList) :
    readString name ms = some t := by
  rw [readString, h, map_some, String.ofList_toList]

theorem Holds.readSecret (h : Holds s ms) : ∃ t, readSecret N (.object ms) =
    (lineAgain N s.lineNo).map fun n => { s with lineNo := n, secretString := t } := by
  obtain ⟨y, hy, hline⟩ := h.lineNo
  obtain ⟨t, ht⟩ := h.secretString
  have htexts := h.texts
  simp only [secretTexts, forall_mem_cons] at htexts
  obtain ⟨htype, hfile, hsecretType, hconfidence, htier, hstatus, hmasvs, -⟩ := htexts
  have hsecret : textFrom (received "secretString" ms) = some t := by
    rw [ht]
    rfl
  have hint : intFrom (received "lineNo" ms) = Text.atoi y := by
    rw [hline, intFrom, scalarFrom, asInt]
    · cases Text.atoi y <;> rfl
    · exact Json.noConfusion
  refine ⟨t, ?_⟩
  rw [lineAgain, hy, bind_some, Mcp.readSecret, structFrom_object, bind_eq_bind,
    bind_some, readString_of_textFrom htype, hint, hfile, readString_of_textFrom hsecretType, hsecret,
    readString_of_textFrom hconfidence, h.score, readString_of_textFrom htier,
    readString_of_textFrom hstatus, readString_of_textFrom hmasvs]
  cases Text.atoi y <;> rfl

def Item (s : SecretModel N) (v : Json) : Prop := ∃ ms, v = .object ms ∧ Sorted ms ∧ Holds s ms

theorem Item.mask (h : Item s v) : Item s (maskItem v) := by
  obtain ⟨ms, rfl, hms, hs⟩ := h
  refine ⟨_, rfl, ?_, hs.adjust hms _⟩
  rw [adjust]
  split
  · exact sorted_put hms
  · exact hms

def Alike (s r : SecretModel N) : Prop :=
  tierOf r = tierOf s ∧ statusOf r = statusOf s ∧ typeOf r = typeOf s

variable {secrets : List (SecretModel N)} {items : List Json}

end JsonSummary

def counts (format target platform path : List Char) (secrets : List (SecretModel N))
    (fs : List Apk.PlatformFinding) (reveal : Bool) : Option Counts :=
  ((renderFindings format target platform secrets fs reveal).toOption.bind fun file =>
    (getResults N path file).toOption).map fun a => a.summary.counts

end Morf.Mcp
