import Morf.Lib.Distinct
import Morf.Report.Render

/-! The rules and results of a SARIF document refer to each other. -/

namespace Morf.Report

open Morf.Lib Morf.Lib.Json Morf.Lib.Distinct Morf.Crypto
open Morf.Apk (PlatformFinding)
open List

def uses (secrets : List (SecretModel N)) (platformFindings : List PlatformFinding) :
    List (String × String) :=
  secrets.map (fun s => (s.secretType, s.masvsID)) ++ platformFindings.map fun f => (f.ruleID, f.masvsID)

def tagsFor (id : String) (us : List (String × String)) : List String :=
  firsts (fun t => t) (((us.filter fun u => u.1 = id).map Prod.snd).filter fun t => t ≠ "")

structure Registered (us : List (String × String)) (rules : List Rule) : Prop where
  ids : rules.map Rule.id = firsts (fun id => id) (us.map Prod.fst)
  tags : ∀ r ∈ rules, r.tags = tagsFor r.id us

theorem tagsFor_concat_of_ne {id : String} (h : u.1 ≠ id) (us : List (String × String)) :
    tagsFor id (us ++ [u]) = tagsFor id us := by
  simp [tagsFor, h]

theorem tagsFor_concat_self (id masvsID : String) (us : List (String × String)) :
    tagsFor id (us ++ [(id, masvsID)]) =
      if masvsID ≠ "" ∧ masvsID ∉ tagsFor id us then tagsFor id us ++ [masvsID] else tagsFor id us := by
  by_cases hm : masvsID = ""
  · simp [tagsFor, hm]
  · have hfilter : (((us ++ [(id, masvsID)]).filter fun u => u.1 = id).map Prod.snd).filter
        (fun t => t ≠ "") =
        (((us.filter fun u => u.1 = id).map Prod.snd).filter fun t => t ≠ "") ++ [masvsID] := by
      simp [hm]
    rw [tagsFor, hfilter, firsts_concat, map_id']
    by_cases hmem : masvsID ∈ tagsFor id us
    · rw [if_pos (mem_firsts_self.mp hmem), if_neg fun h => h.2 hmem]
      rfl
    · rw [if_neg (mt mem_firsts_self.mpr hmem), if_pos ⟨hm, hmem⟩]
      rfl

theorem Registered.register (h : Registered us rules) (id name shortDescription masvsID : String) :
    Registered (us ++ [(id, masvsID)]) (register id name shortDescription masvsID rules) := by
  have hmem : ∀ id, id ∈ rules.map Rule.id ↔ id ∈ us.map Prod.fst := fun id => by
    rw [h.ids, mem_firsts_self]
  have hany : (rules.any fun r => r.id = id) = true ↔ id ∈ us.map Prod.fst := by
    rw [← hmem]
    simp
  have hids : firsts (fun id => id) ((us ++ [(id, masvsID)]).map Prod.fst) =
      if id ∈ us.map Prod.fst then firsts (fun id => id) (us.map Prod.fst)
      else firsts (fun id => id) (us.map Prod.fst) ++ [id] := by
    rw [map_append, map_singleton, firsts_concat, map_id']
  by_cases hid : id ∈ us.map Prod.fst
  · rw [Report.register, if_pos (hany.mpr hid)]
    constructor
    · rw [hids, if_pos hid, ← h.ids, map_map]
      refine map_congr_left fun r _ => ?_
      simp only [Function.comp_apply]
      split <;> rfl
    · intro r' hr'
      obtain ⟨r, hr, rfl⟩ := mem_map.mp hr'
      by_cases he : r.id = id
      · subst he
        have hif : (if r.id = r.id ∧ masvsID ≠ "" ∧ masvsID ∉ r.tags then
            { r with tags := r.tags ++ [masvsID] } else r) =
            { r with tags := tagsFor r.id (us ++ [(r.id, masvsID)]) } := by
          rw [tagsFor_concat_self, ← h.tags r hr]
          by_cases hm : masvsID ≠ "" ∧ masvsID ∉ r.tags
          · rw [if_pos ⟨rfl, hm⟩, if_pos hm]
          · rw [if_neg fun h => hm h.2, if_neg hm]
        rw [hif]
      · rw [if_neg fun h => he h.1, h.tags r hr, tagsFor_concat_of_ne (Ne.symm he)]
  · rw [Report.register, if_neg (mt hany.mp hid)]
    constructor
    · rw [hids, if_neg hid, map_append, h.ids]
      rfl
    · intro r' hr'
      rcases mem_append.mp hr' with hr | hr
      · have hne : id ≠ r'.id := fun he => hid (he ▸ (hmem _).mp (mem_map_of_mem hr))
        rw [h.tags r' hr, tagsFor_concat_of_ne hne]
      · rw [mem_singleton.mp hr]
        have hnone : us.filter (fun u => u.1 = id) = [] := by
          refine filter_eq_nil_iff.mpr fun u hu he => ?_
          exact hid (of_decide_eq_true he ▸ mem_map_of_mem hu)
        rw [tagsFor_concat_self, tagsFor, hnone]
        by_cases hm : masvsID = ""
        · rw [if_pos hm, if_neg fun h => h.1 hm]
          rfl
        · rw [if_neg hm, if_pos ⟨hm, not_mem_nil⟩]
          rfl

def rulesFor (secrets : List (SecretModel N)) (platformFindings : List PlatformFinding) : List Rule :=
  platformFindings.foldl registerPlatform (secrets.foldl registerSecret [])

theorem registered_rulesFor (secrets : List (SecretModel N)) (platformFindings : List PlatformFinding) :
    Registered (uses secrets platformFindings) (rulesFor secrets platformFindings) := by
  have hsecrets : Registered (secrets.map fun s => (s.secretType, s.masvsID))
      (secrets.foldl registerSecret []) := by
    induction secrets using reverseRecOn with
    | nil => exact ⟨rfl, fun _ h => absurd h not_mem_nil⟩
    | append_singleton secrets s ih =>
      rw [foldl_concat, map_append]
      exact ih.register _ _ _ _
  induction platformFindings using reverseRecOn with
  | nil =>
    rw [uses, map_nil, append_nil]
    exact hsecrets
  | append_singleton fs f ih =>
    rw [rulesFor, foldl_concat, uses, map_append, ← append_assoc]
    exact ih.register _ _ _ _

/-! The places of a document. -/

def runs : Traversal Json Json := (member "runs".toList).comp items

def resultsOf : Traversal Json Json := runs.comp ((member "results".toList).comp items)

def rulesOf : Traversal Json Json :=
  runs.comp ((member "tool".toList).comp ((member "driver".toList).comp
    ((member "rules".toList).comp items)))

def resultRule : Traversal Json (List Char) := (member "ruleId".toList).comp text

def ruleId : Traversal Json (List Char) := (member "id".toList).comp text

def ruleTags : Traversal Json (List Char) :=
  (member "properties".toList).comp ((member "tags".toList).comp (items.comp text))

section Document

variable (target platform : List Char) (secrets : List (SecretModel N))
  (platformFindings : List PlatformFinding)

def document : Json := .object (sarifLog target platform secrets platformFindings)

theorem results_document : resultsOf.foci (document target platform secrets platformFindings) =
    secrets.map secretResult ++ platformFindings.map platformResult := by
  have h : resultsOf.foci (document target platform secrets platformFindings) =
    ((secrets.map secretResult ++ platformFindings.map platformResult) ++ []) ++ [] := rfl
  rw [h, append_nil, append_nil]

theorem rules_document : rulesOf.foci (document target platform secrets platformFindings) =
    (rulesFor secrets platformFindings).map ruleJson := by
  have h : rulesOf.foci (document target platform secrets platformFindings) =
    ((((rulesFor secrets platformFindings).map ruleJson ++ []) ++ []) ++ []) ++ [] := rfl
  rw [h, append_nil, append_nil, append_nil, append_nil]

end Document

theorem resultRule_resultJson (ruleID : List Char) (level : String) (message : List Char)
    (place : Json) (props : Members) :
    resultRule.foci (resultJson ruleID level message place props) = [ruleID] := by
  by_cases h : props = []
  · rw [resultJson, if_pos h]
    rfl
  · rw [resultJson, if_neg h]
    rfl

theorem omitEmpty_cases (key : String) (s : List Char) :
    omitEmpty key s = [] ∨ omitEmpty key s = [field key s] := by
  rw [omitEmpty]
  split
  · exact .inl rfl
  · exact .inr rfl

theorem ruleId_ruleJson (r : Rule) : ruleId.foci (ruleJson r) = [r.id.toList] := by
  rcases omitEmpty_cases "name" r.name.toList with hname | hname <;> by_cases htags : r.tags = []
  all_goals
    simp only [ruleJson, hname, htags, if_pos, if_neg, not_false_iff]
    rfl

theorem ruleTags_ruleJson (r : Rule) :
    ruleTags.foci (ruleJson r) = r.tags.map String.toList := by
  by_cases htags : r.tags = []
  · rw [htags]
    rcases omitEmpty_cases "name" r.name.toList with hname | hname
    all_goals
      simp only [ruleJson, hname, htags, if_pos]
      rfl
  · have hfoci : ruleTags.foci (ruleJson r) =
        (((r.tags.map fun t => Json.string t.toList).flatMap text.foci) ++ []) ++ [] := by
      rcases omitEmpty_cases "name" r.name.toList with hname | hname
      all_goals
        simp only [ruleJson, hname, htags, if_neg, not_false_iff]
        rfl
    rw [hfoci, append_nil, append_nil, flatMap_map]
    exact flatMap_pure_eq_map ..

structure WellLinked (doc : Json) (secrets : List (SecretModel N))
    (platformFindings : List PlatformFinding) : Prop where
  results : resultsOf.foci doc = secrets.map secretResult ++ platformFindings.map platformResult
  named : (resultsOf.foci doc).map resultRule.foci =
    (uses secrets platformFindings).map fun u => [u.1.toList]
  order : (rulesOf.foci doc).map ruleId.foci =
    firsts (fun id => id) ((resultsOf.foci doc).map resultRule.foci)
  distinct : ((rulesOf.foci doc).map ruleId.foci).Nodup
  linked : ∀ result ∈ resultsOf.foci doc,
    ((rulesOf.foci doc).map ruleId.foci).count (resultRule.foci result) = 1
  used : ∀ rule ∈ rulesOf.foci doc, ∃ result ∈ resultsOf.foci doc,
    resultRule.foci result = ruleId.foci rule
  tags : ∀ rule ∈ rulesOf.foci doc, ∃ id, ruleId.foci rule = [id.toList] ∧
    ruleTags.foci rule = (tagsFor id (uses secrets platformFindings)).map String.toList

theorem wellLinked_document (target platform : List Char) (secrets : List (SecretModel N))
    (platformFindings : List PlatformFinding) :
    WellLinked (document target platform secrets platformFindings) secrets platformFindings := by
  have hreg := registered_rulesFor secrets platformFindings
  have hnamed : (secrets.map secretResult ++ platformFindings.map platformResult).map resultRule.foci =
      (uses secrets platformFindings).map fun u => [u.1.toList] := by
    rw [uses, map_append, map_append, map_map, map_map, map_map, map_map]
    congr 1
    · exact map_congr_left fun s _ => resultRule_resultJson ..
    · exact map_congr_left fun f _ => resultRule_resultJson ..
  have horder : ((rulesFor secrets platformFindings).map ruleJson).map ruleId.foci =
      firsts (fun id => id) ((uses secrets platformFindings).map fun u => [u.1.toList]) := by
    have hinj : (fun id : String => [id.toList]).Injective := fun a b h =>
      String.toList_injective (singleton_inj.mp h)
    have hids : ((rulesFor secrets platformFindings).map ruleJson).map ruleId.foci =
        ((rulesFor secrets platformFindings).map Rule.id).map fun id => [id.toList] := by
      rw [map_map, map_map]
      exact map_congr_left fun r _ => ruleId_ruleJson r
    rw [hids, hreg.ids, ← firsts_map hinj, map_map]
    rfl
  have hres := results_document target platform secrets platformFindings
  have hrules := rules_document target platform secrets platformFindings
  generalize document target platform secrets platformFindings = doc at hres hrules
  rw [← hres] at hnamed
  rw [← hrules, ← hnamed] at horder
  refine ⟨hres, hnamed, horder, ?_, ?_, ?_, ?_⟩
  · rw [horder]
    exact nodup_firsts_self _
  · intro result hresult
    rw [horder]
    exact count_eq_one_of_mem (nodup_firsts_self _)
      (mem_firsts_self.mpr (mem_map_of_mem hresult))
  · intro rule hrule
    have hmem := mem_map_of_mem (f := ruleId.foci) hrule
    rw [horder, mem_firsts_self] at hmem
    exact mem_map.mp hmem
  · intro rule hrule
    rw [hrules] at hrule
    obtain ⟨r, hr, rfl⟩ := mem_map.mp hrule
    exact ⟨r.id, ruleId_ruleJson r, by rw [ruleTags_ruleJson, hreg.tags r hr]⟩

def SameButValue (s s' : SecretModel N) : Prop :=
  ∃ value, maskSecret value = maskSecret s.secretString ∧ s' = { s with secretString := value }

theorem secretResult_eq (h : SameButValue s s') : secretResult s' = secretResult s := by
  obtain ⟨value, hmask, rfl⟩ := h
  rw [secretResult, secretResult, hmask]
  rfl

theorem registerSecret_eq (h : SameButValue s s') (rules : List Rule) :
    registerSecret rules s' = registerSecret rules s := by
  obtain ⟨value, -, rfl⟩ := h
  rfl

theorem encodeSARIFWithFindings_eq (target platform : List Char)
    (h : Forall₂ SameButValue secrets secrets') (platformFindings : List PlatformFinding) :
    encodeSARIFWithFindings target platform secrets' platformFindings =
      encodeSARIFWithFindings target platform secrets platformFindings := by
  have hresults : secrets'.map secretResult = secrets.map secretResult := by
    induction h with
    | nil => rfl
    | cons hs _ ih => rw [map_cons, map_cons, secretResult_eq hs, ih]
  have hrules : ∀ rules, secrets'.foldl registerSecret rules = secrets.foldl registerSecret rules := by
    induction h with
    | nil => exact fun _ => rfl
    | cons hs _ ih =>
      intro rules
      rw [foldl_cons, foldl_cons, registerSecret_eq hs]
      exact ih (cons.inj hresults).2 _
  rw [encodeSARIFWithFindings, sarifLog, hresults, hrules]
  rfl

theorem sarif_well_linked (target platform : List Char) (secrets : List (SecretModel N))
    (platformFindings : List PlatformFinding) :
    (∃ doc, parse (encodeSARIFWithFindings target platform secrets platformFindings) = some doc ∧
      WellLinked doc secrets platformFindings) ∧
    ∀ secrets', List.Forall₂ SameButValue secrets secrets' →
      encodeSARIFWithFindings target platform secrets' platformFindings =
        encodeSARIFWithFindings target platform secrets platformFindings :=
  ⟨⟨document target platform secrets platformFindings,
    parse_encodeSARIF target platform secrets platformFindings,
    wellLinked_document target platform secrets platformFindings⟩,
    fun _ h => encodeSARIFWithFindings_eq target platform h platformFindings⟩

def tokenAt (value : List Char) : SecretModel .exact where
  type := "file"
  lineNo := 7
  fileLocation := "res/values/strings.xml".toList
  secretType := "Token"
  secretString := value
  secretConfidence := "high"
  masvsID := "MASVS-STORAGE-1"

/-- The middle of a value is not in the document. -/
theorem middle_not_shown :
    encodeSARIFWithFindings "app.apk".toList "android".toList [tokenAt "abcd-one-yz".toList] [] =
      encodeSARIFWithFindings "app.apk".toList "android".toList [tokenAt "abcd-two-yz".toList] [] :=
  (sarif_well_linked "app.apk".toList "android".toList [tokenAt "abcd-two-yz".toList] []).2 _
    (.cons ⟨"abcd-one-yz".toList, by decide, rfl⟩ .nil)

end Morf.Report
