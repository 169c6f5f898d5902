import Morf.Apk.Exposure
import Morf.Crypto.AtRest
import Morf.Gate.Evaluate
import Morf.Lib.Fields

/-! What the results API gives out of a stored result: `MaskResultJSON` and `MaskComparisonJSON` of
`report/sarif.go`, and the handler of `router/routers.go` that calls the former. -/

namespace Morf.Report

open Morf.Lib Morf.Lib.Json Morf.Crypto

inductive UnmarshalError
  | malformed
  | notObject
  deriving DecidableEq

def maskItem : Json → Json := onObject (adjust "secretString".toList (onString maskSecret))

def maskList : Json → Json := onArray (List.map maskItem)

def maskResult (env : Members) : Members :=
  adjust "data".toList (onObject (adjust "secrets".toList maskList)) env

def comparisonLists : List (List Char) := ["added".toList, "removed".toList, "unchanged".toList]

def maskComparison (env : Members) : Members :=
  comparisonLists.foldl (fun env key => adjust key maskList env) env

section

variable (N : Numbers)

/-- Reads an envelope, masks it and writes it again.  The null is read as a map that is nil. -/
def maskJSON (mask : Members → Members) (raw : List Char) : Except UnmarshalError (List Char) :=
  match unmarshal N raw with
  | none => .error .malformed
  | some .null => .ok (marshal .null)
  | some (.object env) => .ok (marshal (.object (mask env)))
  | some _ => .error .notObject

def maskResultJSON : List Char → Except UnmarshalError (List Char) := maskJSON N maskResult

def maskComparisonJSON : List Char → Except UnmarshalError (List Char) := maskJSON N maskComparison

/-- The fields of the answer for a completed job that hold its result, with the setting
`MORF_MASK_RESULTS`. -/
def resultFields (maskResults : String) (result : List Char) : List (String × List Char) :=
  if result.isEmpty then []
  else if maskResults = "false" then [("result", result)]
  else
    match maskResultJSON N result with
    | .ok masked => [("result", masked)]
    | .error _ => [("result_error", "result unavailable (masking failed)".toList)]

end

/-! The places that hold a secret. -/

def itemSecret : Traversal Json (List Char) := (member "secretString".toList).comp text

def listSecrets : Traversal Json (List Char) := items.comp itemSecret

def resultSecrets : Traversal Json (List Char) :=
  (member "data".toList).comp ((member "secrets".toList).comp listSecrets)

def comparisonSecrets : Traversal Json (List Char) :=
  (members fun k => decide (k ∈ comparisonLists)).comp listSecrets

variable {env : Members}

theorem onObject_adjust (hv : Normal N v) : onObject (adjust k f) v = (member k).map f v := by
  cases v with
  | object ms => exact congrArg Json.object (adjust_eq_map hv.1)
  | null | bool | number | string | array => rfl

theorem maskItem_eq (hv : Normal N v) : maskItem v = itemSecret.map maskSecret v := by
  rw [maskItem, onObject_adjust hv]
  exact Traversal.map_congr _ fun w _ => (text_map maskSecret w).symm

theorem maskList_eq (hv : Normal N v) : maskList v = listSecrets.map maskSecret v := by
  rw [maskList, ← items_map]
  exact Traversal.map_congr _ fun w hw => maskItem_eq (normal_foci_items hv w hw)

theorem maskResult_eq (hv : Normal N (.object env)) :
    .object (maskResult env) = resultSecrets.map maskSecret (.object env) := by
  refine (onObject_adjust hv).trans (Traversal.map_congr _ fun data hdata => ?_)
  have hdata := normal_foci_members hv data hdata
  refine (onObject_adjust hdata).trans (Traversal.map_congr _ fun secrets hsecrets => ?_)
  exact maskList_eq (normal_foci_members hdata secrets hsecrets)

theorem maskComparison_eq (hv : Normal N (.object env)) :
    .object (maskComparison env) = comparisonSecrets.map maskSecret (.object env) := by
  have hkeys : comparisonLists.Nodup := by decide
  rw [maskComparison, foldl_adjust_eq_map hkeys hv.1]
  refine (members_map _ maskList (.object env)).symm.trans (Traversal.map_congr _ fun w hw => ?_)
  exact maskList_eq (normal_foci_members hv w hw)

theorem normal_listSecrets (f : List Char → List Char) (hv : Normal N v) :
    Normal N (listSecrets.map f v) :=
  normal_items hv fun _ hitem => normal_members hitem fun _ => normal_text f

theorem normal_resultSecrets (f : List Char → List Char) (hv : Normal N v) :
    Normal N (resultSecrets.map f v) :=
  normal_members hv fun _ hdata => normal_members hdata fun _ => normal_listSecrets f

theorem normal_comparisonSecrets (f : List Char → List Char) (hv : Normal N v) :
    Normal N (comparisonSecrets.map f v) :=
  normal_members hv fun _ => normal_listSecrets f

/-- `mask` masks what stands at the places `t`, all of them inside of objects. -/
structure Masks (N : Numbers) (mask : Members → Members) (t : Traversal Json (List Char)) :
    Prop where
  object : ∀ {env}, Normal N (.object env) → .object (mask env) = t.map maskSecret (.object env)
  other : ∀ {v}, asObject v = none → t.map maskSecret v = v
  normal : ∀ {v}, Normal N v → Normal N (t.map maskSecret v)

theorem masks_result (N : Numbers) : Masks N maskResult resultSecrets where
  object := maskResult_eq
  other {v} h := by
    cases v with
    | object => cases h
    | null | bool | number | string | array => rfl
  normal := normal_resultSecrets maskSecret

theorem masks_comparison (N : Numbers) : Masks N maskComparison comparisonSecrets where
  object := maskComparison_eq
  other {v} h := by
    cases v with
    | object => cases h
    | null | bool | number | string | array => rfl
  normal := normal_comparisonSecrets maskSecret

def deliver : Json → Except UnmarshalError (List Char)
  | .null => .ok (marshal .null)
  | .object ms => .ok (marshal (.object ms))
  | _ => .error .notObject

theorem maskJSON_eq (h : Masks N mask t) (hraw : unmarshal N raw = some v) :
    maskJSON N mask raw = deliver (t.map maskSecret v) := by
  have hv := normal_of_unmarshal hraw
  rw [maskJSON, hraw]
  cases v with
  | object env => rw [← h.object hv]; rfl
  | null | bool | number | string | array => rw [h.other rfl]; rfl

def IsEnvelope (v : Json) : Prop := v = .null ∨ ∃ env, v = .object env

theorem Masks.isEnvelope (h : Masks N mask t) (hv : Normal N v) (he : IsEnvelope v) :
    IsEnvelope (t.map maskSecret v) := by
  rcases he with rfl | ⟨env, rfl⟩
  · exact .inl (h.other rfl)
  · exact .inr ⟨mask env, (h.object hv).symm⟩

theorem deliver_envelope (h : IsEnvelope v) : deliver v = .ok (marshal v) := by
  rcases h with rfl | ⟨env, rfl⟩ <;> rfl

/-- `run` gives of the strings at the places `t` of a text their masks and nothing else. -/
structure RevealsMasks (N : Numbers) (run : List Char → Except UnmarshalError (List Char))
    (t : Traversal Json (List Char)) : Prop where
  /-- Texts that differ at those places only, in strings that have the same masks, give the same. -/
  same : ∀ raw₁ raw₂ v₁ v₂, unmarshal N raw₁ = some v₁ → unmarshal N raw₂ = some v₂ →
    t.map (fun _ => []) v₁ = t.map (fun _ => []) v₂ →
    (t.foci v₁).map maskSecret = (t.foci v₂).map maskSecret → run raw₁ = run raw₂
  /-- What is written is the text that was read, with the masks at those places. -/
  frame : ∀ raw v, unmarshal N raw = some v → IsEnvelope v → ∃ out w, run raw = .ok out ∧
    unmarshal N out = some w ∧ t.map (fun _ => []) w = t.map (fun _ => []) v ∧
      t.foci w = (t.foci v).map maskSecret
  /-- Nothing is written for any other text. -/
  closed : ∀ raw, (∀ v, unmarshal N raw = some v → ¬ IsEnvelope v) → ∃ err, run raw = .error err

theorem Masks.reveals (h : Masks N mask t) : RevealsMasks N (maskJSON N mask) t where
  same raw₁ raw₂ v₁ v₂ h₁ h₂ herase hmasks := by
    rw [maskJSON_eq h h₁, maskJSON_eq h h₂,
      t.map_eq_map (t.shape_eq_of_map_const herase) hmasks]
  frame raw v hraw he := by
    have hv := normal_of_unmarshal hraw
    refine ⟨_, _, (maskJSON_eq h hraw).trans (deliver_envelope (h.isEnvelope hv he)),
      unmarshal_marshal (h.normal hv), ?_, t.foci_map maskSecret v⟩
    exact t.map_const_eq_of_shape [] (t.shape_map maskSecret v)
  closed raw hraw := by
    rw [maskJSON]
    split
    · exact ⟨_, rfl⟩
    · exact absurd (.inl rfl) (hraw _ ‹_›)
    · exact absurd (.inr ⟨_, rfl⟩) (hraw _ ‹_›)
    · exact ⟨_, rfl⟩

theorem results_reveal_masks (N : Numbers) : RevealsMasks N (maskResultJSON N) resultSecrets ∧
    RevealsMasks N (maskComparisonJSON N) comparisonSecrets :=
  ⟨(masks_result N).reveals, (masks_comparison N).reveals⟩

theorem resultFields_same (hset : setting ≠ "false") (h₁ : unmarshal N raw₁ = some v₁)
    (h₂ : unmarshal N raw₂ = some v₂)
    (herase : resultSecrets.map (fun _ => []) v₁ = resultSecrets.map (fun _ => []) v₂)
    (hmasks : (resultSecrets.foci v₁).map maskSecret = (resultSecrets.foci v₂).map maskSecret) :
    resultFields N setting raw₁ = resultFields N setting raw₂ := by
  have hne : ∀ {raw v}, unmarshal N raw = some v → ¬ raw.isEmpty = true := by
    intro raw v h hempty
    rw [List.isEmpty_iff.mp hempty] at h
    cases h
  have hsame : maskResultJSON N raw₁ = maskResultJSON N raw₂ :=
    (masks_result N).reveals.same raw₁ raw₂ v₁ v₂ h₁ h₂ herase hmasks
  rw [resultFields, resultFields, if_neg (hne h₁), if_neg (hne h₂), if_neg hset, if_neg hset, hsame]

/-! The files that a scan writes: `EncodeSARIFWithFindings` of `report/sarif.go` and
`renderFindings` of `cmd/scan.go`. -/

open Morf.Apk (PlatformFinding PlatformFindingSeverity tierForSeverity)
open List Option

/-- A `float64` other than zero, as it is written. -/
structure Score (N : Numbers) where
  literal : List Char
  canon : N.canon literal = some literal
  nonzero : literal ∉ ["0".toList, "-0".toList]

/-- A finding of a scan; no score stands for the score zero. -/
abbrev SecretModel (N : Numbers) := Gate.SecretModel (Score N)

def field (key : String) (s : List Char) : List Char × Json := (key.toList, .string s)

def omitEmpty (key : String) (s : List Char) : Members := if s = [] then [] else [field key s]

def scoreMember (score : Option (Score N)) : Members :=
  (score.map fun x => ("score".toList, Json.number x.literal)).toList

def plainMembers (s : SecretModel N) : Members :=
  [field "type" s.type.toList, ("lineNo".toList, .number (integer s.lineNo)),
    field "fileLocation" s.fileLocation, field "secretType" s.secretType.toList,
    field "secretString" s.secretString, field "secretConfidence" s.secretConfidence.toList]

def secretMembers (s : SecretModel N) : Members :=
  plainMembers s ++ scoreMember s.score ++ omitEmpty "tier" s.tier.toList ++
  omitEmpty "verificationStatus" s.verificationStatus.toList ++ omitEmpty "masvsId" s.masvsID.toList

def secretJson (s : SecretModel N) : Json := .object (secretMembers s)

def severityText : PlatformFindingSeverity → String
  | .info => "info"
  | .low => "low"
  | .medium => "medium"
  | .high => "high"

def platformMembers (f : PlatformFinding) : Members :=
  [field "ruleId" f.ruleID.toList, field "title" f.title.toList,
    field "severity" (severityText f.severity).toList] ++ omitEmpty "masvsId" f.masvsID.toList ++
  [field "category" f.category.toList, field "location" f.location.toList,
    field "evidence" f.evidence] ++ omitEmpty "tier" f.tier.toList

def platformJson (f : PlatformFinding) : Json := .object (platformMembers f)

def sarifVersion := "2.1.0"

def sarifSchema := "https://json.schemastore.org/sarif-2.1.0.json"

def driverName := "MORF"

def driverInfoURI := "https://github.com/amrudesh1/morf"

structure Rule where
  id : String
  name : String
  shortDescription : String
  tags : List String

def ruleJson (r : Rule) : Json :=
  .object ([field "id" r.id.toList] ++ omitEmpty "name" r.name.toList ++
    [("shortDescription".toList, .object [field "text" r.shortDescription.toList])] ++
    if r.tags = [] then []
    else [("properties".toList,
      .object [("tags".toList, .array (r.tags.map fun t => .string t.toList))])])

/-- The first finding with an id describes the rule, and later ones add their tags. -/
def register (id name shortDescription masvsID : String) (rules : List Rule) : List Rule :=
  if rules.any fun r => r.id = id then
    rules.map fun r =>
      if r.id = id ∧ masvsID ≠ "" ∧ masvsID ∉ r.tags then { r with tags := r.tags ++ [masvsID] } else r
  else rules ++ [⟨id, name, shortDescription, if masvsID = "" then [] else [masvsID]⟩]

def registerSecret (rules : List Rule) (s : SecretModel N) : List Rule :=
  register s.secretType s.secretType
    ("Hardcoded secret of type " ++ s.secretType ++ " detected by MORF.") s.masvsID rules

def registerPlatform (rules : List Rule) (f : PlatformFinding) : List Rule :=
  register f.ruleID f.title (f.title ++ " detected by MORF.") f.masvsID rules

def levelForTier (tier : String) : String :=
  if tier = "keep" then "error" else if tier = "info" then "note" else "warning"

def levelForPlatformSeverity : PlatformFindingSeverity → String
  | .high => "error"
  | .info => "note"
  | .medium | .low => "warning"

def location (uri : List Char) (region : Members) : Json :=
  .object [("physicalLocation".toList,
    .object (("artifactLocation".toList, .object [field "uri" uri]) :: region))]

def resultJson (ruleID : List Char) (level : String) (message : List Char) (place : Json)
    (props : Members) : Json :=
  .object ([field "ruleId" ruleID, field "level" level.toList,
    ("message".toList, .object [field "text" message]), ("locations".toList, .array [place])] ++
    if props = [] then [] else [("properties".toList, .object props)])

def secretProps (s : SecretModel N) : Members :=
  omitEmpty "masvsId" s.masvsID.toList ++ scoreMember s.score ++ omitEmpty "tier" s.tier.toList ++
  omitEmpty "verificationStatus" s.verificationStatus.toList

def secretResult (s : SecretModel N) : Json :=
  resultJson s.secretType.toList (levelForTier s.tier)
    (s.secretType.toList ++ " (masked: ".toList ++ maskSecret s.secretString ++ [')'])
    (location s.fileLocation
      [("region".toList, .object [("startLine".toList, .number (integer s.lineNo))])])
    (secretProps s)

def platformProps (f : PlatformFinding) : Members :=
  omitEmpty "category" f.category.toList ++ omitEmpty "masvsId" f.masvsID.toList ++
  omitEmpty "tier" (if f.tier = "" then tierForSeverity f.severity else f.tier).toList

def platformResult (f : PlatformFinding) : Json :=
  resultJson f.ruleID.toList (levelForPlatformSeverity f.severity)
    (f.title.toList ++ ": ".toList ++ f.evidence) (location f.location.toList []) (platformProps f)

def sarifRun (target platform : List Char) (rules : List Rule) (results : List Json) : Members :=
  [("tool".toList, .object [("driver".toList, .object [field "name" driverName.toList,
      field "informationUri" driverInfoURI.toList, ("rules".toList, .array (rules.map ruleJson))])]),
    ("results".toList, .array results),
    ("properties".toList, .object [field "platform" platform, field "target" target])]

def sarifLog (target platform : List Char) (secrets : List (SecretModel N))
    (platformFindings : List PlatformFinding) : Members :=
  let rules := platformFindings.foldl registerPlatform (secrets.foldl registerSecret [])
  let results := secrets.map secretResult ++ platformFindings.map platformResult
  [field "$schema" sarifSchema.toList, field "version" sarifVersion.toList,
    ("runs".toList, .array [.object (sarifRun target platform rules results)])]

def encodeSARIFWithFindings (target platform : List Char) (secrets : List (SecretModel N))
    (platformFindings : List PlatformFinding) : List Char :=
  indent 0 (.object (sarifLog target platform secrets platformFindings))

inductive RenderError
  | masking (err : UnmarshalError)
  | malformed
  | invalidFormat (format : List Char)

def envelope (target platform : List Char) (secrets platformFindings : List Json) : Members :=
  [("data".toList, .object [field "platform" platform,
    ("platformFindings".toList, .array platformFindings), ("secrets".toList, .array secrets),
    field "target" target])]

def renderFindings (format target platform : List Char) (secrets : List (SecretModel N))
    (platformFindings : List PlatformFinding) (reveal : Bool) : Except RenderError (List Char) :=
  if format.map Text.toLower = "sarif".toList then
    .ok (encodeSARIFWithFindings target platform secrets platformFindings)
  else if format.map Text.toLower = "json".toList then
    let raw := marshal (.object (envelope target platform (secrets.map secretJson)
      (platformFindings.map platformJson)))
    match if reveal then .ok raw else maskResultJSON N raw with
    | .error err => .error (.masking err)
    | .ok raw =>
      match unmarshal N raw with
      | none => .error .malformed
      | some pretty => .ok (indent 0 pretty)
  else .error (.invalidFormat format)

section Written

variable (target platform : List Char)

theorem mem_omitEmpty (h : m ∈ omitEmpty key s) : m = field key s := by
  rw [omitEmpty] at h
  split at h
  · cases h
  · exact mem_singleton.mp h

theorem literal_omitEmpty : ∀ m ∈ omitEmpty key s, Literal m.2 :=
  fun m hm => by
    rw [mem_omitEmpty hm]
    trivial

theorem literal_scoreMember (score : Option (Score N)) : ∀ m ∈ scoreMember score, Literal m.2 :=
  fun m hm => by
    obtain ⟨x, -, rfl⟩ := map_eq_some_iff.mp (mem_toList.mp hm)
    exact N.scan_canon x.canon

theorem literal_ruleJson (r : Rule) : Literal (ruleJson r) := by
  refine literalMembers_iff.mpr fun m hm => ?_
  simp only [mem_append, mem_singleton] at hm
  rcases hm with ((rfl | hm) | rfl) | hm
  · trivial
  · exact literal_omitEmpty m hm
  · exact ⟨trivial, trivial⟩
  · split at hm
    · cases hm
    · rw [mem_singleton.mp hm]
      exact ⟨literalItems_iff.mpr (List.forall_mem_map.mpr fun _ _ => trivial), trivial⟩

theorem literal_resultJson (hplace : Literal place) (hprops : ∀ m ∈ props, Literal m.2) :
    Literal (resultJson ruleID level message place props) := by
  refine literalMembers_iff.mpr fun m hm => ?_
  simp only [mem_append, mem_cons, not_mem_nil, or_false] at hm
  rcases hm with (rfl | rfl | rfl | rfl) | hm
  · trivial
  · trivial
  · exact ⟨trivial, trivial⟩
  · exact ⟨hplace, trivial⟩
  · split at hm
    · cases hm
    · rw [mem_singleton.mp hm]
      exact literalMembers_iff.mpr hprops

theorem literal_secretResult (s : SecretModel N) : Literal (secretResult s) := by
  refine literal_resultJson ⟨⟨⟨trivial, trivial⟩, ⟨scanNumber_integer s.lineNo, trivial⟩, trivial⟩,
    trivial⟩ fun m hm => ?_
  simp only [secretProps, mem_append] at hm
  rcases hm with ((hm | hm) | hm) | hm
  · exact literal_omitEmpty m hm
  · exact literal_scoreMember s.score m hm
  · exact literal_omitEmpty m hm
  · exact literal_omitEmpty m hm

theorem literal_platformResult (f : PlatformFinding) : Literal (platformResult f) := by
  refine literal_resultJson ⟨⟨⟨trivial, trivial⟩, trivial⟩, trivial⟩ fun m hm => ?_
  simp only [platformProps, mem_append] at hm
  rcases hm with (hm | hm) | hm <;> exact literal_omitEmpty m hm

theorem parse_encodeSARIF (secrets : List (SecretModel N))
    (platformFindings : List PlatformFinding) :
    parse (encodeSARIFWithFindings target platform secrets platformFindings) =
      some (.object (sarifLog target platform secrets platformFindings)) := by
  rw [encodeSARIFWithFindings, indent_eq_write]
  refine parse_write .indented ⟨trivial, trivial, ⟨⟨⟨⟨trivial, trivial, ?_, trivial⟩, trivial⟩, ?_,
    ⟨trivial, trivial, trivial⟩, trivial⟩, trivial⟩, trivial⟩
  · exact literalItems_iff.mpr (List.forall_mem_map.mpr fun r _ => literal_ruleJson r)
  · refine literalItems_iff.mpr fun v hv => ?_
    rcases mem_append.mp hv with hv | hv
    · obtain ⟨s, -, rfl⟩ := List.mem_map.mp hv
      exact literal_secretResult s
    · obtain ⟨f, -, rfl⟩ := List.mem_map.mp hv
      exact literal_platformResult f

end Written

end Morf.Report
