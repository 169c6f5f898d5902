import Morf.Detect.PrivateKeys
import Morf.Detect.Values
import Morf.Lib.Places

/-! Attribution of the matches on a line: one search for the union of all patterns against a
search for each of them. -/

namespace Morf.Detect

open Morf.Lib
open List Function Option Regex

theorem le_of_mem_compiledFrom (hq : q ∈ compiledFrom i ps) : i ≤ q.1 := by
  induction ps generalizing i with
  | nil => cases hq
  | cons p ps ih =>
    rw [compiledFrom] at hq
    split at hq
    · exact Nat.le_of_succ_le (ih hq)
    · cases hq with
      | head => exact Nat.le_refl _
      | tail _ hq => exact Nat.le_of_succ_le (ih hq)

theorem compiledFrom_nodup (ps : List PatternInfo) (i : Nat) :
    ((compiledFrom i ps).map Prod.fst).Nodup := by
  induction ps generalizing i with
  | nil => exact nodup_nil
  | cons p ps ih =>
    rw [compiledFrom]
    split
    · exact ih (i + 1)
    · refine nodup_cons.mpr ⟨fun h => ?_, ih (i + 1)⟩
      obtain ⟨q, hq, hi⟩ := List.mem_map.mp h
      have := le_of_mem_compiledFrom hq
      omega

theorem buildCombinedRegex_some (h : buildCombinedRegex unionCompiles ps = some k) :
    k = ⟨union (compiledFrom 0 ps), labels (compiledFrom 0 ps)⟩ := by
  simp only [buildCombinedRegex] at h
  split at h
  · cases h
  · exact (some.inj h).symm

variable {S : Type} {c : PatternCache} {content span : Text}

theorem combined_finding (hc : c.combined = some k)
    (hreport : k.regex.reportAt content p = some (gs, span))
    (howner : owner k.groupToPattern gs = some i) (fileLocation : Text) (lineNo : Int) :
    (finding c fileLocation lineNo (some i) span : SecretModel S) ∈
      findingsForLine c fileLocation lineNo content := by
  refine mem_findingsForLine ?_ fileLocation lineNo
  have hmem := mem_reportsFrom.mpr ⟨p, hreport⟩
  rw [← findAll_eq] at hmem
  obtain ⟨m, hm, hfound⟩ := List.mem_map.mp hmem
  obtain ⟨rfl, rfl⟩ := Prod.mk.inj hfound
  simp only [spans, hc]
  exact List.mem_map.mpr ⟨m, hm, by rw [howner]⟩

theorem fallback_finding (hr : (i, r) ∈ compiledFrom 0 c.patterns)
    (hreport : r.Reports content p span) (fileLocation : Text) (lineNo : Int) :
    (finding c fileLocation lineNo (some i) span : SecretModel S) ∈
      findingsForLine { c with combined := none } fileLocation lineNo content := by
  obtain ⟨gs, hgs⟩ := hreport
  refine mem_findingsForLine (c := { c with combined := none }) ?_ fileLocation lineNo
  have hmem := mem_reportsFrom.mpr ⟨p, hgs⟩
  rw [← findAll_eq] at hmem
  obtain ⟨m, hm, hfound⟩ := List.mem_map.mp hmem
  obtain ⟨rfl, rfl⟩ := Prod.mk.inj hfound
  exact mem_flatMap.mpr ⟨(i, r), hr, List.mem_map.mpr ⟨m, hm, rfl⟩⟩

/-- Every match that a pattern's own search reports on a line is reported by the combined
expression, at the same place and for that pattern, and becomes a finding as it would without
the combined expression. -/
theorem own_matches_attributed_iff {unionCompiles : Bool} (hc : c.combined = some k)
    (hk : buildCombinedRegex unionCompiles c.patterns = some k) (content fileLocation : Text)
    (lineNo : Int) :
    (∀ i r, (i, r) ∈ compiledFrom 0 c.patterns → ∀ p span, r.Reports content p span →
      (∃ gs, k.regex.reportAt content p = some (gs, span) ∧
        owner k.groupToPattern gs = some i) ∧
      (finding c fileLocation lineNo (some i) span : SecretModel S) ∈
        findingsForLine c fileLocation lineNo content ∧
      (finding c fileLocation lineNo (some i) span : SecretModel S) ∈
        findingsForLine { c with combined := none } fileLocation lineNo content) ↔
      Regex.Unshadowed (compiledFrom 0 c.patterns) content := by
  obtain rfl := buildCombinedRegex_some hk
  rw [← union_recall_iff (compiledFrom_nodup c.patterns 0)]
  constructor
  · intro h i r hr p span hreport
    exact (h i r hr p span hreport).1
  · intro h i r hr p span hreport
    obtain ⟨gs, hgs, howner⟩ := h i r hr p span hreport
    exact ⟨⟨gs, hgs, howner⟩, combined_finding hc hgs howner fileLocation lineNo,
      fallback_finding hr hreport fileLocation lineNo⟩

theorem lone_pattern_attributed : postgresRE.Reports urlA 0 urlA ∧
    (finding urlCache [] 1 (some 0) urlA : SecretModel Unit) ∈
      findingsForLine urlCache [] 1 urlA := by
  have hreport : postgresRE.Reports urlA 0 urlA := ⟨[], by decide +kernel⟩
  have hiff := @own_matches_attributed_iff Unit urlCache _ true rfl rfl urlA [] 1
  have hall := hiff.mpr (unshadowed_singleton _)
  exact ⟨hreport, (hall 0 postgresRE mem_cons_self 0 urlA hreport).2.1⟩

/-- The pattern before it in the list takes the header of an RSA key away from its own pattern. -/
theorem rsa_header_unattributed :
    ((compiledFrom 0 keyCache.patterns)[1]?.map fun q =>
        (q.2.findAll keyHeader).map Regex.Match.span) = some [keyHeader] ∧
      (findingsForLine keyCache [] 1 keyHeader : List (SecretModel Unit)).map
        SecretModel.secretType = [keyType] ∧
      "RSA private key" ∈ (findingsForLine { keyCache with combined := none } [] 1 keyHeader :
        List (SecretModel Unit)).map SecretModel.secretType := by
  decide +kernel

def findMatchingPattern (c : PatternCache) (content : Text) : Option PatternInfo :=
  let attributed := match c.combined with
    | some k => (k.regex.find (.start content)).bind fun m =>
        (owner k.groupToPattern m.groups).bind fun i => c.patterns[i]?
    | none => c.patterns.find? fun p => p.compiled.any fun r : Regex => r.isMatch content
  attributed.or (c.patterns.find? fun p => p.compiled.isNone)

/-- The group around the expression of a pattern takes part in a match: its number follows those
of the groups of the patterns before it. -/
def MatchedBy (rs : List (Nat × Regex)) (m : Regex.Match) (i : Nat) : Prop :=
  ∃ rs₁ r rs₂, rs = rs₁ ++ (i, r) :: rs₂ ∧ 1 + (union rs₁).groups ∈ m.groups

theorem matchedBy_iff (hm : m ∈ (union rs).findAll content) :
    ∃ i, owner (labels rs) m.groups = some i ∧ ∀ j, MatchedBy rs m j ↔ j = i := by
  obtain ⟨a, -, hmatch⟩ := mem_findAll hm
  obtain ⟨rs₁, i, r, rs₂, gs, hrs, -, -, hgroups, hlabels⟩ := union_labels hmatch
  have hne : m.groups ≠ [] := hgroups ▸ cons_ne_nil _ _
  refine ⟨i, owner_eq hne hlabels, fun j => ⟨?_, ?_⟩⟩
  · rintro ⟨rs₁', r', rs₂', hrs', hmem⟩
    have hlabel := (hlabels _ hmem).2
    rw [hrs', ← Nat.add_zero (1 + _), labels_append (Nat.zero_le _)] at hlabel
    exact some.inj (some.inj hlabel)
  · rintro rfl
    exact ⟨rs₁, r, rs₂, hrs, hgroups ▸ mem_cons_self⟩

theorem compiledFrom_getElem (h : (i, r) ∈ compiledFrom 0 ps) : ∃ q, ps[i]? = some q := by
  obtain ⟨rs₁, rs₂, hrs⟩ := append_of_mem h
  obtain ⟨ps₁, q, ps₂, rfl, -, rfl, -⟩ := compiledFrom_split hrs
  exact ⟨q, by simp⟩

theorem head?_findAll (r : Regex) (text : Text) :
    (r.findAll text).head? = r.find (.start text) := by
  rw [findAll, findAllFrom]
  cases r.find (.start text) with
  | none => rfl
  | some m =>
    dsimp only
    split <;> rfl

theorem findingsForLine_of_spans (h : spans c content ≠ []) :
    (findingsForLine c fileLocation lineNo content : List (SecretModel S)) =
      (spans c content).map fun s => finding c fileLocation lineNo s.1 s.2 := by
  rw [findingsForLine]
  split
  · contradiction
  · rfl

/-- The map of the combined expression has an entry for each of its groups and for the whole
match, every match is attributed to the pattern whose group takes part in it, and the first one
decides which pattern a line is said to match. -/
theorem combined_groups_attributed {patterns : List PatternInfo} {unionCompiles : Bool}
    (hk : buildCombinedRegex unionCompiles patterns = some k) :
    (k.groupToPattern.length = k.regex.groups + 1 ∧ k.groupToPattern[0]? = some none ∧
      ∀ rs₁ i r rs₂, compiledFrom 0 patterns = rs₁ ++ (i, r) :: rs₂ → ∀ j ≤ r.groups,
        k.groupToPattern[1 + (union rs₁).groups + j]? = some (some i)) ∧
    ∀ fileLocation lineNo content, k.regex.isMatch content = true →
      (∀ m ∈ k.regex.findAll content, ∃! i, MatchedBy (compiledFrom 0 patterns) m i) ∧
      List.Forall₂ (fun m f => ∀ i, MatchedBy (compiledFrom 0 patterns) m i →
          f = (finding ⟨patterns, some k⟩ fileLocation lineNo (some i) m.span : SecretModel S))
        (k.regex.findAll content)
        (findingsForLine ⟨patterns, some k⟩ fileLocation lineNo content) ∧
      ∃ i span q, (findingsForLine ⟨patterns, some k⟩ fileLocation lineNo content).head? =
          some (finding ⟨patterns, some k⟩ fileLocation lineNo (some i) span : SecretModel S) ∧
        patterns[i]? = some q ∧ findMatchingPattern ⟨patterns, some k⟩ content = some q := by
  obtain rfl := buildCombinedRegex_some hk
  refine ⟨⟨labels_length _, rfl, fun rs₁ i r rs₂ hrs j hj => hrs ▸ labels_append hj⟩,
    fun fileLocation lineNo content hmatch => ⟨fun m hm => ?_, ?_⟩⟩
  · obtain ⟨i, -, hi⟩ := matchedBy_iff hm
    exact ⟨i, (hi i).mpr rfl, fun j hj => (hi j).mp hj⟩
  obtain ⟨m, hm⟩ := isSome_iff_exists.mp hmatch
  rw [← head?_findAll] at hm
  obtain ⟨ms, hms⟩ := head?_eq_some_iff.mp hm
  have hfirst : m ∈ (union (compiledFrom 0 patterns)).findAll content := hms ▸ mem_cons_self
  rw [findingsForLine_of_spans (by simp [spans, hms])]
  dsimp only [spans]
  rw [List.map_map]
  refine ⟨?_, ?_⟩
  · rw [forall₂_map_right_iff, forall₂_same]
    intro m hm j hj
    obtain ⟨i, howner, hi⟩ := matchedBy_iff hm
    rw [(hi j).mp hj, comp_apply, howner]
  · obtain ⟨i, howner, hi⟩ := matchedBy_iff hfirst
    obtain ⟨rs₁, r, rs₂, hrs, -⟩ := (hi i).mpr rfl
    obtain ⟨q, hq⟩ := compiledFrom_getElem (hrs ▸ mem_append_right rs₁ mem_cons_self)
    refine ⟨i, m.span, q, ?_, hq, ?_⟩
    · rw [head?_map, hm, map_some, comp_apply, howner]
    · simp [findMatchingPattern, ← head?_findAll, hm, howner, hq]

theorem url_groups_attributed : ∃ k, buildCombinedRegex true urlCache.patterns = some k ∧
    k.groupToPattern.length = k.regex.groups + 1 ∧
    ∃ q, findMatchingPattern ⟨urlCache.patterns, some k⟩ urlA = some q := by
  have hk : buildCombinedRegex true urlCache.patterns =
      some ⟨union [(0, postgresRE)], labels [(0, postgresRE)]⟩ := rfl
  obtain ⟨⟨hlength, -⟩, hline⟩ := combined_groups_attributed (S := Unit) hk
  obtain ⟨-, -, -, -, q, -, -, hq⟩ := hline [] 1 urlA (by decide +kernel)
  exact ⟨_, hk, hlength, q, hq⟩

end Morf.Detect
