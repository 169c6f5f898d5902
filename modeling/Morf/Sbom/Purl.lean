import Morf.Sbom.Components

/-! The package URLs that are emitted for components, in `models/PurlMap.go`, `apk/lockfiles.go` and
`ios/lockfiles.go`, and what `purlToOSV` of `osv/osv.go` reads in them. -/

namespace Morf.Sbom

open Morf.Lib
open List

def cocoaPodsPurl (pod version : Text) : Text := withVersion ("pkg:cocoapods/".toList ++ pod) version

def swiftPurl (host version : Text) : Text := withVersion ("pkg:swift/".toList ++ host) version

def mavenPurl (group artifact version : Text) : Text :=
  withVersion ("pkg:maven/".toList ++ group ++ '/' :: artifact) version

/-- `pkg:type/name@version`, with a version also if it is empty. -/
def purlOf (purlType : String) (name version : Text) : Text :=
  "pkg:".toList ++ (purlType.toList ++ '/' :: (name ++ '@' :: version))

def npmPurl : Text → Text → Text := purlOf "npm"

def pubPurl : Text → Text → Text := purlOf "pub"

theorem purlFor_cases (h : purlFor name bundleID version = some (purl, group)) :
    (∃ artifact, purl = mavenPurl group artifact version) ∨ (∃ pod, purl = cocoaPodsPurl pod version) ∨
      ∃ host, purl = swiftPurl host version := by
  simp only [purlFor, Option.bind_eq_bind, Option.bind_eq_some_iff] at h
  obtain ⟨e, -, ⟨purl', group'⟩, hcoord, hp⟩ := h
  obtain ⟨rfl, rfl⟩ := Prod.mk.inj (Option.some.inj hp)
  rw [PurlEntry.coordinate] at hcoord
  split at hcoord
  · obtain ⟨rfl, rfl⟩ := Prod.mk.inj (Option.some.inj hcoord)
    exact .inl ⟨_, rfl⟩
  · split at hcoord
    · obtain ⟨rfl, -⟩ := Prod.mk.inj (Option.some.inj hcoord)
      exact .inr (.inl ⟨_, rfl⟩)
    · split at hcoord
      · obtain ⟨rfl, -⟩ := Prod.mk.inj (Option.some.inj hcoord)
        exact .inr (.inr ⟨_, rfl⟩)
      · cases hcoord

theorem splitVersion_append {version : Text} (h : '@' ∉ version) (name : Text) :
    splitVersion (name ++ '@' :: version) = (name, version) := by
  have hlast : Text.afterLast '@' (name ++ '@' :: version) = version := Text.afterLast_append h name
  have hlength : (name ++ '@' :: version).length - version.length - 1 = name.length := by
    rw [length_append, length_cons]
    omega
  rw [splitVersion, if_pos (by simp), hlast]
  simp only [hlength, take_left]

theorem purlToOSV_typed {purlType : Text} (h : '/' ∉ purlType) (rest : Text) :
    purlToOSV ("pkg:".toList ++ (purlType ++ '/' :: rest)) = (do
      let (name, version) := splitVersion rest
      guard (version ≠ [])
      if purlType = "maven".toList then
        let (group, artifact) ← Text.cut '/' name
        guard (group ≠ [] ∧ artifact ≠ [])
        return ⟨"Maven", group ++ ':' :: artifact, version⟩
      else
        guard (name ≠ [])
        if purlType = "pub".toList then return ⟨"Pub", name, version⟩
        else if purlType = "npm".toList then return ⟨"npm", name, version⟩
        else if purlType = "swift".toList then return ⟨"SwiftURL", "https://".toList ++ name, version⟩
        else none) := by
  have hcut : Text.cut '/' (purlType ++ '/' :: rest) = some (purlType, rest) := by
    rw [Text.cut_append h]
    simp [Text.cut]
  have hprefix : cutPrefix "pkg:".toList ("pkg:".toList ++ (purlType ++ '/' :: rest)) =
      some (purlType ++ '/' :: rest) := by
    simp [cutPrefix]
  rw [purlToOSV, hprefix, Option.bind_eq_bind, Option.bind_some, hcut]
  rfl

section Emitted

variable {version : Text}

theorem mavenPurl_eq (h : version ≠ []) (group artifact : Text) :
    mavenPurl group artifact version = purlOf "maven" (group ++ '/' :: artifact) version := by
  have hopen : "pkg:maven/".toList = "pkg:".toList ++ ("maven".toList ++ ['/']) := by decide
  rw [mavenPurl, withVersion, if_neg h, purlOf, hopen]
  simp only [append_assoc, cons_append, nil_append]

theorem swiftPurl_eq (h : version ≠ []) (host : Text) :
    swiftPurl host version = purlOf "swift" host version := by
  have hopen : "pkg:swift/".toList = "pkg:".toList ++ ("swift".toList ++ ['/']) := by decide
  rw [swiftPurl, withVersion, if_neg h, purlOf, hopen]
  simp only [append_assoc, cons_append, nil_append]

theorem purlToOSV_maven (hne : version ≠ []) (hat : '@' ∉ version) {group artifact : Text}
    (hgroup : group ≠ [] ∧ '/' ∉ group) (hartifact : artifact ≠ []) :
    purlToOSV (mavenPurl group artifact version) =
      some ⟨"Maven", group ++ ':' :: artifact, version⟩ := by
  have hcut : Text.cut '/' (group ++ '/' :: artifact) = some (group, artifact) := by
    rw [Text.cut_append hgroup.2]
    simp [Text.cut]
  rw [mavenPurl_eq hne, purlOf, purlToOSV_typed (by decide), splitVersion_append hat]
  simp [hcut, hne, hgroup.1, hartifact]

theorem purlToOSV_npm (hne : version ≠ []) (hat : '@' ∉ version) {name : Text} (hname : name ≠ []) :
    purlToOSV (npmPurl name version) = some ⟨"npm", name, version⟩ := by
  rw [npmPurl, purlOf, purlToOSV_typed (by decide), splitVersion_append hat]
  simp [hne, hname]

theorem purlToOSV_pub (hne : version ≠ []) (hat : '@' ∉ version) {name : Text} (hname : name ≠ []) :
    purlToOSV (pubPurl name version) = some ⟨"Pub", name, version⟩ := by
  rw [pubPurl, purlOf, purlToOSV_typed (by decide), splitVersion_append hat]
  simp [hne, hname]

theorem purlToOSV_swift (hne : version ≠ []) (hat : '@' ∉ version) {host : Text} (hhost : host ≠ []) :
    purlToOSV (swiftPurl host version) = some ⟨"SwiftURL", "https://".toList ++ host, version⟩ := by
  rw [swiftPurl_eq hne, purlOf, purlToOSV_typed (by decide), splitVersion_append hat]
  simp [hne, hhost]

theorem purlToOSV_unsupported {purlType : Text} (hslash : '/' ∉ purlType)
    (htype : purlType ∉ ["maven".toList, "pub".toList, "npm".toList, "swift".toList]) (rest : Text) :
    purlToOSV ("pkg:".toList ++ (purlType ++ '/' :: rest)) = none := by
  simp only [mem_cons, not_mem_nil, not_or, or_false] at htype
  obtain ⟨hmaven, hpub, hnpm, hswift⟩ := htype
  rw [purlToOSV_typed hslash]
  simp only [if_neg hmaven, if_neg hpub, if_neg hnpm, if_neg hswift, Option.bind_eq_bind,
    Option.bind_fun_none]

theorem purlToOSV_cocoaPods (pod version : Text) : purlToOSV (cocoaPodsPurl pod version) = none := by
  obtain ⟨rest, hrest⟩ : ∃ rest, cocoaPodsPurl pod version =
      "pkg:".toList ++ ("cocoapods".toList ++ '/' :: rest) := by
    have hopen : "pkg:cocoapods/".toList = "pkg:".toList ++ ("cocoapods".toList ++ ['/']) := by decide
    rw [cocoaPodsPurl, withVersion, hopen]
    split
    · exact ⟨pod, by simp only [append_assoc, cons_append, nil_append]⟩
    · exact ⟨pod ++ '@' :: version, by simp only [append_assoc, cons_append, nil_append]⟩
  rw [hrest]
  exact purlToOSV_unsupported (by decide) (by decide) rest

theorem purlToOSV_purlFor (h : purlFor name bundleID [] = some (purl, group)) :
    purlToOSV purl = none := by
  simp only [purlFor, Option.bind_eq_bind, Option.bind_eq_some_iff] at h
  obtain ⟨e, he, ⟨purl', group'⟩, hcoord, hp⟩ := h
  obtain ⟨rfl, -⟩ := Prod.mk.inj (Option.some.inj hp)
  exact purlToOSV_of_not_mem
    (at_not_mem_coordinate e (mem_of_find?_eq_some he) bundleID purl' group' hcoord)

/-- Package URLs with a version reach OSV with their coordinates, and the others do not. -/
theorem emitted_purls_queried :
    (∀ version : Text, version ≠ [] → '@' ∉ version →
      (∀ group artifact, group ≠ [] ∧ '/' ∉ group → artifact ≠ [] →
        purlToOSV (mavenPurl group artifact version) =
          some ⟨"Maven", group ++ ':' :: artifact, version⟩) ∧
      (∀ name, name ≠ [] → purlToOSV (npmPurl name version) = some ⟨"npm", name, version⟩) ∧
      (∀ name, name ≠ [] → purlToOSV (pubPurl name version) = some ⟨"Pub", name, version⟩) ∧
      ∀ host, host ≠ [] →
        purlToOSV (swiftPurl host version) = some ⟨"SwiftURL", "https://".toList ++ host, version⟩) ∧
    (∀ group artifact, '@' ∉ group → '@' ∉ artifact → purlToOSV (mavenPurl group artifact []) = none) ∧
    (∀ host, '@' ∉ host → purlToOSV (swiftPurl host []) = none) ∧
    (∀ name, purlToOSV (npmPurl name []) = none ∧ purlToOSV (pubPurl name []) = none) ∧
    (∀ name bundleID version purl group, purlFor name bundleID version = some (purl, group) →
      ((∃ artifact, purl = mavenPurl group artifact version) ∨
        (∃ pod, purl = cocoaPodsPurl pod version) ∨ ∃ host, purl = swiftPurl host version) ∧
      (version = [] → purlToOSV purl = none)) ∧
    (∀ pod version, purlToOSV (cocoaPodsPurl pod version) = none) ∧
    ∀ name version, purlToOSV (genericPurl name version) = none := by
  have hopen : '@' ∉ "pkg:maven/".toList ∧ '@' ∉ "pkg:swift/".toList := by decide
  refine ⟨fun version hne hat => ⟨fun group artifact => purlToOSV_maven hne hat,
    fun name => purlToOSV_npm hne hat, fun name => purlToOSV_pub hne hat,
    fun host => purlToOSV_swift hne hat⟩, fun group artifact hgroup hartifact => ?_,
    fun host hhost => ?_, fun name => ⟨?_, ?_⟩,
    fun _ _ _ _ _ h => ⟨purlFor_cases h, fun hversion => purlToOSV_purlFor (hversion ▸ h)⟩,
    purlToOSV_cocoaPods, purlToOSV_generic⟩
  · refine purlToOSV_of_not_mem ?_
    rw [mavenPurl, withVersion, if_pos rfl]
    simp only [mem_append, mem_cons, hopen.1, hgroup, hartifact, or_self, or_false]
    decide
  · refine purlToOSV_of_not_mem ?_
    rw [swiftPurl, withVersion, if_pos rfl]
    simp only [mem_append, hopen.2, hhost, or_self, not_false_eq_true]
  · rw [npmPurl, purlOf, purlToOSV_typed (by decide), splitVersion_append not_mem_nil]
    rfl
  · rw [pubPurl, purlOf, purlToOSV_typed (by decide), splitVersion_append not_mem_nil]
    rfl

theorem scoped_name_queried :
    purlToOSV (npmPurl "@babel/core".toList "7.1.0".toList) =
        some ⟨"npm", "@babel/core".toList, "7.1.0".toList⟩ ∧
      purlToOSV (mavenPurl "com.squareup".toList "okhttp".toList "3.1".toList) =
        some ⟨"Maven", "com.squareup".toList ++ ':' :: "okhttp".toList, "3.1".toList⟩ ∧
      purlToOSV (mavenPurl "com.squareup".toList "okhttp".toList []) = none := by
  exact ⟨(emitted_purls_queried.1 _ (by decide) (by decide)).2.1 _ (by decide),
    (emitted_purls_queried.1 _ (by decide) (by decide)).1 _ _ (by decide) (by decide),
    emitted_purls_queried.2.1 _ _ (by decide) (by decide)⟩

end Emitted

end Morf.Sbom
