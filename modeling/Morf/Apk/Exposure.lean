import Morf.Apk.Components

/-! The blocks that `extractComponentBlocks` cuts out for the providers of a printed manifest. -/

namespace Morf.Apk

open Morf.Lib
open Morf.Lib.Search
open List Function Element

def lineOf : Nat × Row → Line
  | (depth, .space bound uri) => spaceLine depth bound uri
  | (depth, .element tag line) => elementLine depth tag.name line
  | (depth, .attr a) => attrLine depth a

theorem lineOf_depth (r : Nat × Row) : (lineOf r).depth = r.1 := by
  obtain ⟨depth, row⟩ := r
  cases row <;> rfl

theorem printLine_eq (r : Nat × Row) : printLine r = (lineOf r).print := by
  obtain ⟨depth, row⟩ := r
  cases row <;> rfl

theorem lineOf_begins (hname : name ∈ ["application", "provider"]) (r : Nat × Row) :
    (lineOf r).Begins name.toList ↔ r.2.is name = true := by
  obtain ⟨depth, row⟩ := r
  cases row with
  | space bound uri => exact iff_of_false (spaceLine_not_begins depth _ bound uri) Bool.false_ne_true
  | attr a => exact iff_of_false (attrLine_not_begins depth _ a) Bool.false_ne_true
  | element tag line =>
    have hspace : ' ' ∉ name.toList := by
      rcases mem_cons.mp hname with rfl | hname
      · decide
      · rw [mem_singleton.mp hname]
        decide
    rw [lineOf, elementLine_begins depth hspace, Row.is, beq_iff_eq]
    exact ⟨tag.plain name hname, fun h => h ▸ prefix_refl _⟩

theorem not_begins (hname : name ∈ ["application", "provider"]) (h : r.2.is name = false) :
    ¬ (lineOf r).Begins name.toList := fun hb => by
  rw [(lineOf_begins hname r).mp hb] at h
  cases h

def BlockState.providerType : Text := "provider".toList

theorem rowsIn_depth (es : List Element) : ∀ r ∈ rowsIn es, 1 ≤ r.1 := by
  induction es with
  | nil => simp [rowsIn]
  | cons e es ih =>
    intro r hr
    rw [rowsIn, mem_append, shift, mem_map] at hr
    rcases hr with ⟨r', -, rfl⟩ | hr
    · exact Nat.le_add_left 1 _
    · exact ih r hr

theorem shift_shift (a b : Nat) (rows : List (Nat × Row)) :
    shift a (shift b rows) = shift (b + a) rows := by
  simp [shift, comp_def, Nat.add_assoc]

theorem rowsIn_eq (es : List Element) :
    rowsIn es = es.flatMap fun e => shift 1 e.rows := by
  induction es with
  | nil => rfl
  | cons e es ih => rw [rowsIn, ih, flatMap_cons]

theorem shift_rowsIn (n : Nat) (es : List Element) :
    shift n (rowsIn es) = es.flatMap fun e => shift (n + 1) e.rows := by
  rw [rowsIn_eq, shift, map_flatMap]
  refine flatMap_congr fun e _ => ?_
  exact (shift_shift n 1 e.rows).trans (by rw [Nat.add_comm])

namespace Element

def heading (depth : Nat) : Element → Line
  | .mk tag line _ _ => elementLine depth tag.name line

def inner (depth : Nat) : Element → List Line
  | .mk _ _ attrs children =>
    (shift depth (attrs.map (fun a => (1, .attr a)) ++ rowsIn children)).map lineOf

theorem lines_eq (depth : Nat) (e : Element) :
    (shift depth e.rows).map lineOf = e.heading depth :: e.inner depth := by
  obtain ⟨tag, line, attrs, children⟩ := e
  rw [rows, shift, map_cons, map_cons, Nat.zero_add]
  rfl

theorem heading_begins (depth : Nat) (e : Element) (hname : name ∈ ["application", "provider"]) :
    (e.heading depth).Begins name.toList ↔ e.is name = true := by
  obtain ⟨tag, line, attrs, children⟩ := e
  exact lineOf_begins hname (depth, .element tag line)

theorem component (n : Nat) (e : Element) (ha : e.is "application" = false)
    (hbelow : ∀ r ∈ rowsIn e.children, r.2.is "application" = false ∧ r.2.is "provider" = false) :
    BlockState.Component BlockState.providerType n (e.heading (n + 1)) (e.inner (n + 1)) := by
  obtain ⟨tag, line, attrs, children⟩ := e
  have happ : ¬ (elementLine (n + 1) tag.name line).Begins applicationText := fun h =>
    Bool.false_ne_true
      (ha.symm.trans ((heading_begins (n + 1) (.mk tag line attrs children) (by simp)).mp h))
  refine ⟨rfl, elementLine_isElement _ _ _, happ, fun l hl => ?_⟩
  obtain ⟨r, hr, rfl⟩ := mem_map.mp hl
  obtain ⟨r', hr', rfl⟩ := mem_map.mp hr
  rcases mem_append.mp hr' with hr' | hr'
  · obtain ⟨a, -, rfl⟩ := mem_map.mp hr'
    exact ⟨Nat.lt_add_of_pos_left Nat.one_pos, attrLine_not_begins _ _ a, attrLine_not_begins _ _ a⟩
  · refine ⟨?_, not_begins (by simp) (hbelow r' hr').1, not_begins (by simp) (hbelow r' hr').2⟩
    rw [lineOf_depth]
    exact Nat.lt_add_of_pos_left (rowsIn_depth children r' hr')

end Element

namespace Manifest

variable (m : Manifest)

def rowsBefore : List (Nat × Row) :=
  spaceRows 0 m.spaces ++ (m.spaces.length, .element manifestTag m.line) ::
    (m.attrs.map (fun a => (m.spaces.length + 1, .attr a)) ++
      m.before.flatMap fun e => shift (m.spaces.length + 1) e.rows)

def rowsAfter : List (Nat × Row) := m.after.flatMap fun e => shift (m.spaces.length + 1) e.rows

theorem rows_eq : m.rows = m.rowsBefore ++ (m.spaces.length + 1, .element applicationTag m.appLine) ::
    (m.appAttrs.map (fun a => (m.spaces.length + 2, .attr a)) ++
      (m.components.flatMap fun e => shift (m.spaces.length + 2) e.rows) ++ m.rowsAfter) := by
  have happ : shift (m.spaces.length + 1) m.application.rows =
      (m.spaces.length + 1, .element applicationTag m.appLine) ::
        (m.appAttrs.map (fun a => (m.spaces.length + 2, .attr a)) ++
          m.components.flatMap fun e => shift (m.spaces.length + 2) e.rows) := by
    rw [application, Element.rows, ← shift_rowsIn (m.spaces.length + 1)]
    simp [shift, comp_def, Nat.add_comm 1]
  have hroot : shift m.spaces.length m.root.rows =
      (m.spaces.length, .element manifestTag m.line) ::
        (m.attrs.map (fun a => (m.spaces.length + 1, .attr a)) ++
          (m.before ++ m.application :: m.after).flatMap fun e => shift (m.spaces.length + 1) e.rows) := by
    rw [root, Element.rows, ← shift_rowsIn m.spaces.length]
    simp [shift, comp_def, Nat.add_comm 1]
  rw [rows, hroot, flatMap_append, flatMap_cons, happ, rowsBefore, rowsAfter]
  simp

theorem spaceRows_is (name : String) (n : Nat) (spaces : List (Name × Word)) :
    ∀ r ∈ spaceRows n spaces, r.2.is name = false := by
  induction spaces generalizing n with
  | nil => simp [spaceRows]
  | cons s spaces ih =>
    intro r hr
    rcases mem_cons.mp hr with rfl | hr
    · rfl
    · exact ih (n + 1) r hr

theorem shifted_is {es : List Element} (h : ∀ e ∈ es, ∀ r ∈ e.rows, r.2.is "application" = false)
    (n : Nat) : ∀ r ∈ es.flatMap fun e => shift n e.rows, r.2.is "application" = false := by
  intro r hr
  obtain ⟨e, he, hr⟩ := mem_flatMap.mp hr
  obtain ⟨r', hr', rfl⟩ := mem_map.mp hr
  exact h e he r' hr'

theorem rowsBefore_is : ∀ r ∈ m.rowsBefore, r.2.is "application" = false := by
  intro r hr
  rcases mem_append.mp hr with hr | hr
  · exact spaceRows_is _ 0 m.spaces r hr
  rcases mem_cons.mp hr with rfl | hr
  · exact (by decide : (manifestTag.name.text == "application".toList) = false)
  rcases mem_append.mp hr with hr | hr
  · obtain ⟨a, -, rfl⟩ := mem_map.mp hr
    rfl
  · exact shifted_is (fun e he => m.outside e (mem_append_left _ he)) _ r hr

theorem rowsAfter_is : ∀ r ∈ m.rowsAfter, r.2.is "application" = false :=
  shifted_is (fun e he => m.outside e (mem_append_right _ he)) _

theorem rowsAfter_head : ∀ l ∈ (m.rowsAfter.map lineOf).head?,
    l.IsElement ∧ l.depth = m.spaces.length + 1 := by
  intro l hl
  rw [rowsAfter] at hl
  cases hafter : m.after with
  | nil =>
    rw [hafter] at hl
    cases hl
  | cons e es =>
    obtain ⟨tag, line, attrs, children⟩ := e
    rw [hafter, flatMap_cons, map_append, lines_eq] at hl
    cases hl
    exact ⟨elementLine_isElement _ _ _, rfl⟩

def outline : Outline BlockState.providerType where
  depth := m.spaces.length + 1
  before := m.rowsBefore.map lineOf
  app := elementLine (m.spaces.length + 1) applicationTag.name m.appLine
  attrs := m.appAttrs.map (attrLine (m.spaces.length + 2))
  components := m.components.map fun e =>
    (e.heading (m.spaces.length + 2), e.inner (m.spaces.length + 2))
  after := m.rowsAfter.map lineOf
  outside := by
    intro l hl
    rcases List.mem_append.mp hl with hl | hl
    · obtain ⟨r, hr, rfl⟩ := List.mem_map.mp hl
      exact not_begins (by simp) (m.rowsBefore_is r hr)
    · obtain ⟨r, hr, rfl⟩ := List.mem_map.mp hl
      exact not_begins (by simp) (m.rowsAfter_is r hr)
  app_begins := (elementLine_begins _ (by decide) _ _).mpr (List.prefix_refl _)
  app_depth := rfl
  attrs_below := BlockState.below_attrs _ _ _
  component := by
    intro c hc
    obtain ⟨e, he, rfl⟩ := List.mem_map.mp hc
    exact e.component _ (m.inside e he).1 (m.inside e he).2
  after_head := m.rowsAfter_head

theorem lines_outline : m.outline.lines = m.rows.map lineOf := by
  have hcomponents : ((m.components.map fun e =>
      (e.heading (m.spaces.length + 2), e.inner (m.spaces.length + 2))).flatMap fun c => c.1 :: c.2) =
      (m.components.flatMap fun e => shift (m.spaces.length + 2) e.rows).map lineOf := by
    rw [flatMap_map, map_flatMap]
    exact flatMap_congr fun e _ => (e.lines_eq _).symm
  have hattrs : m.appAttrs.map (attrLine (m.spaces.length + 2)) =
      (m.appAttrs.map fun a => (m.spaces.length + 2, Row.attr a)).map lineOf := by
    rw [map_map]
    rfl
  simp only [Outline.lines, outline]
  rw [rows_eq, hcomponents, hattrs]
  simp [lineOf]

theorem splitOn_xmlTree : m.xmlTree.splitOn '\n' = m.outline.lines.map Line.print ++ [[]] := by
  have htree : m.xmlTree = (m.rows.map lineOf).flatMap fun l => l.print ++ ['\n'] := by
    rw [xmlTree, flatMap_map]
    exact flatMap_congr fun r _ => by rw [printLine_eq]
  rw [htree, Line.splitOn_print, lines_outline]

/-- The blocks of a printed manifest are those of its providers, whole. -/
theorem extractComponentBlocks_xmlTree :
    extractComponentBlocks (m.xmlTree.splitOn '\n') BlockState.providerType =
      m.providers.flatMap fun e => BlockState.keep ((shift (m.spaces.length + 2) e.rows).map printLine) := by
  have hfilter : (m.components.filter fun e =>
      decide ((e.heading (m.spaces.length + 2)).Begins BlockState.providerType)) = m.providers := by
    refine filter_congr fun e _ => ?_
    rw [Bool.eq_iff_iff, decide_eq_true_iff]
    exact e.heading_begins _ (by simp)
  rw [splitOn_xmlTree, Outline.extractComponentBlocks_lines, outline, filter_map,
    flatMap_map, ← hfilter]
  refine flatMap_congr fun e _ => ?_
  rw [← lines_eq, map_map]
  exact congrArg BlockState.keep (map_congr_left fun r _ => (printLine_eq r).symm)

end Manifest

/-! `extractProviders` of `apk/manifest_parser.go` and the analysis of `apk/exposure.go`: which
content providers of a manifest are reported as open. -/

open Option

def nameKey : Name := ⟨"name".toList, by decide⟩

def exportedKey : Name := ⟨"exported".toList, by decide⟩

def permissionKey : Name := ⟨"permission".toList, by decide⟩

def readPermissionKey : Name := ⟨"readPermission".toList, by decide⟩

def writePermissionKey : Name := ⟨"writePermission".toList, by decide⟩

def grantUriPermissionsKey : Name := ⟨"grantUriPermissions".toList, by decide⟩

def authoritiesKey : Name := ⟨"authorities".toList, by decide⟩

structure ManifestProviderInfo where
  name : Text
  exported : Bool
  permission : Text
  readPermission : Text
  writePermission : Text
  authorities : List Text
  grantUriPermissions : Bool

def isHexValueTrue (hexValue : Text) : Bool := hexValue == "0xffffffff".toList

/-- A flag is given as a text or as a number. -/
def readFlag (string hex : Name → Option Text) (k : Name) : Option Bool :=
  match string k with
  | some v => some (v == "true".toList)
  | none => (hex k).map isHexValueTrue

/-- An undeclared provider is exported below API level 17. -/
def readExported (targetSdk : Int) (string hex : Name → Option Text) : Bool :=
  (readFlag string hex exportedKey).getD (decide (targetSdk < 17))

/-- What `extractProviders` makes of a block, given what the searches for texts and for numbers
find in it. -/
def readProvider (targetSdk : Int) (string hex : Name → Option Text) : Option ManifestProviderInfo :=
  (string nameKey).map fun name =>
    { name
      exported := readExported targetSdk string hex
      permission := (string permissionKey).getD []
      readPermission := (string readPermissionKey).getD []
      writePermission := (string writePermissionKey).getD []
      authorities := ((string authoritiesKey).map (·.splitOn ';')).getD []
      grantUriPermissions := (readFlag string hex grantUriPermissionsKey).getD false }

def extractProviders (lines : List Text) (targetSdk : Int) : List ManifestProviderInfo :=
  (extractComponentBlocks lines BlockState.providerType).filterMap fun block =>
    readProvider targetSdk (findString · block) (findHex · block)

structure ManifestFilterData where
  scheme : Text
  host : Text

structure ManifestFilter where
  categories : List Text
  data : List ManifestFilterData
  autoVerify : Bool

structure ManifestComponentInfo where
  name : Text
  exported : Bool
  permission : Text
  intentFilters : List ManifestFilter

structure AndroidManifest where
  activities : List ManifestComponentInfo
  services : List ManifestComponentInfo
  broadcastReceivers : List ManifestComponentInfo
  contentProviders : List ManifestProviderInfo

inductive PlatformFindingSeverity
  | info | low | medium | high
  deriving DecidableEq

structure PlatformFinding where
  ruleID : String
  title : String
  severity : PlatformFindingSeverity
  masvsID : String
  category : String
  location : String
  evidence : Text
  tier : String

def tierForSeverity : PlatformFindingSeverity → String
  | .high => "keep"
  | _ => "info"

def ruleExportedNoPermission := "exported-component-no-permission"

def ruleBrowsableCustomScheme := "browsable-custom-scheme-deeplink"

def ruleAppLinkNoAutoVerify := "app-link-no-autoverify"

def browsableCategory : Text := "android.intent.category.BROWSABLE".toList

def manifestFinding (ruleID title : String) (severity : PlatformFindingSeverity) (evidence : Text) :
    PlatformFinding :=
  { ruleID, title, severity, evidence
    masvsID := "MASVS-PLATFORM-1"
    category := "platform"
    location := "AndroidManifest.xml"
    tier := tierForSeverity severity }

def exportedEvidence (componentName : Text) (componentType : String) : Text :=
  componentName ++ " (".toList ++ componentType.toList ++ "): exported=true, no android:permission".toList

def newExportedFinding (componentName : Text) (componentType : String)
    (severity : PlatformFindingSeverity) : PlatformFinding :=
  manifestFinding ruleExportedNoPermission "Exported component without permission guard" severity
    (exportedEvidence componentName componentType)

def customSchemeFinding (scheme host : Text) : PlatformFinding :=
  manifestFinding ruleBrowsableCustomScheme
    "Browsable custom-scheme deep-link (potential scheme hijack)" .medium (scheme ++ "://".toList ++ host)

def appLinkNoAutoVerifyFinding (componentName host : Text) : PlatformFinding :=
  manifestFinding ruleAppLinkNoAutoVerify "App Link intent-filter missing android:autoVerify" .low
    (if host = [] then componentName else host)

def hasBrowsableCategory (filter : ManifestFilter) : Bool := filter.categories.contains browsableCategory

def analyzeData (componentName : Text) (filter : ManifestFilter) (data : ManifestFilterData) :
    List PlatformFinding :=
  let scheme := data.scheme.map Text.toLower
  if data.scheme = [] then []
  else if scheme ≠ "http".toList ∧ scheme ≠ "https".toList then
    if hasBrowsableCategory filter then [customSchemeFinding data.scheme data.host] else []
  else if scheme = "https".toList ∧ hasBrowsableCategory filter then
    if !filter.autoVerify then [appLinkNoAutoVerifyFinding componentName data.host] else []
  else []

def analyzeIntentFilters (componentName : Text) (filters : List ManifestFilter) :
    List PlatformFinding :=
  filters.flatMap fun filter => filter.data.flatMap (analyzeData componentName filter)

def analyzeComponent (componentType : String) (c : ManifestComponentInfo) : List PlatformFinding :=
  if !c.exported then []
  else (if c.permission = [] then [newExportedFinding c.name componentType .medium] else []) ++
    analyzeIntentFilters c.name c.intentFilters

def providerIsPermissionGuarded (p : ManifestProviderInfo) : Bool :=
  p.permission ≠ [] || (p.readPermission ≠ [] && p.writePermission ≠ [])

def analyzeProvider (p : ManifestProviderInfo) : List PlatformFinding :=
  if !p.exported then []
  else if !providerIsPermissionGuarded p then [newExportedFinding p.name "provider" .high] else []

def analyzeExposure : Option AndroidManifest → List PlatformFinding
  | none => []
  | some m =>
    m.activities.flatMap (analyzeComponent "activity") ++ m.services.flatMap (analyzeComponent "service") ++
      m.broadcastReceivers.flatMap (analyzeComponent "receiver") ++
      m.contentProviders.flatMap analyzeProvider

def Reports (findings : List PlatformFinding) (n : Text) : Prop :=
  ∃ f ∈ findings, f.ruleID = ruleExportedNoPermission ∧ f.severity = .high ∧
    f.evidence = exportedEvidence n "provider"

theorem reports_append : Reports (fs ++ gs) n ↔ Reports fs n ∨ Reports gs n := by
  simp only [Reports, mem_append, or_and_right, exists_or]

theorem not_reports_of_severity (h : ∀ f ∈ fs, f.severity ≠ .high) : ¬ Reports fs n :=
  fun ⟨f, hf, _, hsev, _⟩ => h f hf hsev

theorem severity_analyzeData (name : Text) (filter : ManifestFilter) (data : ManifestFilterData) :
    ∀ f ∈ analyzeData name filter data, f.severity ≠ .high := by
  unfold analyzeData
  dsimp only
  split
  · simp
  split
  · split <;> simp [customSchemeFinding, manifestFinding]
  split
  · split <;> simp [appLinkNoAutoVerifyFinding, manifestFinding]
  · simp

theorem severity_analyzeComponent (ty : String) (c : ManifestComponentInfo) :
    ∀ f ∈ analyzeComponent ty c, f.severity ≠ .high := by
  intro f hf
  rw [analyzeComponent] at hf
  split at hf
  · cases hf
  rcases mem_append.mp hf with hf | hf
  · split at hf
    · rw [mem_singleton.mp hf]
      simp [newExportedFinding, manifestFinding]
    · cases hf
  · obtain ⟨filter, -, hf⟩ := mem_flatMap.mp hf
    obtain ⟨data, -, hf⟩ := mem_flatMap.mp hf
    exact severity_analyzeData _ _ _ f hf

theorem not_reports_components (ty : String) (cs : List ManifestComponentInfo) :
    ¬ Reports (cs.flatMap (analyzeComponent ty)) n := by
  refine not_reports_of_severity fun f hf => ?_
  obtain ⟨c, -, hf⟩ := mem_flatMap.mp hf
  exact severity_analyzeComponent ty c f hf

theorem exportedEvidence_inj : exportedEvidence n ty = exportedEvidence n' ty ↔ n = n' := by
  simp [exportedEvidence]

theorem reports_analyzeProvider (p : ManifestProviderInfo) :
    Reports (analyzeProvider p) n ↔
      p.exported = true ∧ providerIsPermissionGuarded p = false ∧ p.name = n := by
  rw [analyzeProvider]
  cases p.exported <;> cases providerIsPermissionGuarded p <;>
    simp [Reports, newExportedFinding, manifestFinding, exportedEvidence_inj]

theorem reports_analyzeExposure (m : AndroidManifest) :
    Reports (analyzeExposure (some m)) n ↔ ∃ p ∈ m.contentProviders,
      p.exported = true ∧ providerIsPermissionGuarded p = false ∧ p.name = n := by
  have hproviders : Reports (m.contentProviders.flatMap analyzeProvider) n ↔
      ∃ p ∈ m.contentProviders, Reports (analyzeProvider p) n := by
    simp only [Reports, mem_flatMap]
    constructor
    · rintro ⟨f, ⟨p, hp, hf⟩, h⟩
      exact ⟨p, hp, f, hf, h⟩
    · rintro ⟨p, hp, f, hf, h⟩
      exact ⟨f, ⟨p, hp, hf⟩, h⟩
  simp only [analyzeExposure, reports_append, not_reports_components, false_or, hproviders,
    reports_analyzeProvider]

theorem filterMap_keep (targetSdk : Int) (lines : List Text) :
    ((BlockState.keep lines).filterMap fun block =>
      readProvider targetSdk (findString · block) (findHex · block)) =
      (readProvider targetSdk (findString · (joinLines lines)) (findHex · (joinLines lines))).toList := by
  rw [BlockState.keep]
  split
  · simp only [filterMap_cons, filterMap_nil]
    cases readProvider targetSdk (findString · (joinLines lines)) (findHex · (joinLines lines)) <;> rfl
  · rename_i hno
    have hname : findString nameKey (joinLines lines) = none := by
      by_contra hsome
      obtain ⟨v, hv⟩ := ne_none_iff_exists'.mp hsome
      rw [findString_eq] at hv
      have hopen : attrOpen nameKey = "android:name".toList ++ ['('] := by decide
      have hinfix := search_some hv
      rw [hopen] at hinfix
      exact hno (contains_iff.mpr ((List.prefix_append _ _).isInfix.trans hinfix))
    rw [readProvider, hname]
    rfl

namespace Element

def ownString (e : Element) (k : Name) : Option Text := e.attrs.findSome? (Attr.named k)

def ownHex (e : Element) (k : Name) : Option Text := e.attrs.findSome? (Attr.number k)

def declares (e : Element) (k : Name) : Bool := (e.ownString k).isSome || (e.ownHex k).isSome

def Guarded (e : Element) : Prop :=
  e.declares permissionKey = true ∨
    (e.declares readPermissionKey = true ∧ e.declares writePermissionKey = true)

def Open (targetSdk : Int) (n : Text) (e : Element) : Prop :=
  e.ownString nameKey = some n ∧ readExported targetSdk e.ownString e.ownHex = true ∧ ¬ e.Guarded

def anyString (e : Element) (k : Name) : Option Text := e.printedAttrs.findSome? (Attr.answer k)

def anyHex (e : Element) (k : Name) : Option Text := e.printedAttrs.findSome? (Attr.hexAnswer k)

def LooksOpen (targetSdk : Int) (n : Text) (e : Element) : Prop :=
  e.anyString nameKey = some n ∧ readExported targetSdk e.anyString e.anyHex = true ∧
    e.anyString permissionKey = none ∧
    (e.anyString readPermissionKey = none ∨ e.anyString writePermissionKey = none)

instance (targetSdk : Int) (n : Text) (e : Element) : Decidable (e.Open targetSdk n) :=
  inferInstanceAs (Decidable (_ ∧ _ ∧ ¬ (_ ∨ _)))

instance (targetSdk : Int) (n : Text) (e : Element) : Decidable (e.LooksOpen targetSdk n) :=
  inferInstanceAs (Decidable (_ ∧ _))

theorem ne_nil_of_anyString {e : Element} (h : e.anyString k = some v) : v ≠ [] := by
  obtain ⟨a, -, ha⟩ := exists_of_findSome?_eq_some h
  rcases or_eq_some_iff.mp ha with ha | ⟨-, ha⟩
  · unfold Attr.named at ha
    split at ha
    · obtain ⟨⟨-, hne⟩, ⟨⟩⟩ := ite_none_right_eq_some.mp ha
      exact hne
    · cases ha
  · unfold Attr.forged at ha
    split at ha
    · obtain ⟨-, ⟨⟩⟩ := ite_none_right_eq_some.mp ha
      decide
    · cases ha

theorem getD_anyString_eq_nil (e : Element) (k : Name) :
    (e.anyString k).getD [] = [] ↔ e.anyString k = none := by
  cases h : e.anyString k with
  | none => simp
  | some v => simpa using ne_nil_of_anyString h

theorem looksOpen_iff (targetSdk : Int) (n : Text) (e : Element) :
    e.LooksOpen targetSdk n ↔ ∃ p, readProvider targetSdk e.anyString e.anyHex = some p ∧
      p.exported = true ∧ providerIsPermissionGuarded p = false ∧ p.name = n := by
  rw [LooksOpen, readProvider]
  cases e.anyString nameKey with
  | none => simp
  | some v =>
    simp only [map_some, some.injEq, exists_eq_left', providerIsPermissionGuarded,
      Bool.or_eq_false_iff, Bool.and_eq_false_iff, decide_eq_false_iff_not, not_not,
      getD_anyString_eq_nil]
    -- the keys are closed texts, which the last step must not compare by evaluation
    generalize e.anyString permissionKey = perm
    generalize e.anyString readPermissionKey = readPerm
    generalize e.anyString writePermissionKey = writePerm
    tauto

end Element

namespace Manifest

variable (m : Manifest) (targetSdk : Int)

theorem extractProviders_xmlTree :
    extractProviders (m.xmlTree.splitOn '\n') targetSdk =
      m.providers.filterMap fun e => readProvider targetSdk e.anyString e.anyHex := by
  rw [extractProviders, extractComponentBlocks_xmlTree, filterMap_flatMap,
    filterMap_eq_flatMap_toList]
  refine flatMap_congr fun e _ => ?_
  have hblock : joinLines ((shift (m.spaces.length + 2) e.rows).map printLine) =
      e.block (m.spaces.length + 2) := rfl
  simp only [filterMap_keep, hblock, Element.findString_block, Element.findHex_block]
  rfl

variable (activities services receivers : List ManifestComponentInfo)

def findings : List PlatformFinding :=
  analyzeExposure (some ⟨activities, services, receivers,
    extractProviders (m.xmlTree.splitOn '\n') targetSdk⟩)

theorem reports_findings (n : Text) :
    Reports (m.findings targetSdk activities services receivers) n ↔
      ∃ e ∈ m.providers, e.LooksOpen targetSdk n := by
  rw [findings, reports_analyzeExposure, extractProviders_xmlTree]
  simp only [mem_filterMap, Element.looksOpen_iff]
  constructor
  · rintro ⟨p, ⟨e, he, hp⟩, h⟩
    exact ⟨e, he, p, hp, h⟩
  · rintro ⟨e, he, p, hp, h⟩
    exact ⟨p, ⟨e, he, hp⟩, h⟩

/-- The findings reflect the manifest exactly if its providers look open as they are by their own
attributes, and no guarded provider has the name of an open one. -/
theorem findings_reflect_iff :
    ((∀ e ∈ m.providers, ∀ n,
        (e.Open targetSdk n → Reports (m.findings targetSdk activities services receivers) n) ∧
        (e.ownString nameKey = some n → e.Guarded →
          ¬ Reports (m.findings targetSdk activities services receivers) n)) ∧
      ∀ n, Reports (m.findings targetSdk activities services receivers) n →
        ∃ e ∈ m.providers, e.Open targetSdk n) ↔
    (∀ n, (∃ e ∈ m.providers, e.LooksOpen targetSdk n) ↔ ∃ e ∈ m.providers, e.Open targetSdk n) ∧
      ∀ e ∈ m.providers, ∀ e' ∈ m.providers, ∀ n, e.ownString nameKey = some n → e.Guarded →
        ¬ e'.Open targetSdk n := by
  simp only [reports_findings]
  constructor
  · rintro ⟨hown, hsound⟩
    refine ⟨fun n => ⟨hsound n, ?_⟩, ?_⟩
    · rintro ⟨e, he, hopen⟩
      exact (hown e he n).1 hopen
    · intro e he e' he' n hname hguard hopen
      exact (hown e he n).2 hname hguard ((hown e' he' n).1 hopen)
  · rintro ⟨hlooks, hnames⟩
    refine ⟨fun e he n => ⟨fun hopen => (hlooks n).mpr ⟨e, he, hopen⟩, ?_⟩, fun n => (hlooks n).mp⟩
    intro hname hguard hreport
    obtain ⟨e', he', hopen⟩ := (hlooks n).mp hreport
    exact hnames e he e' he' n hname hguard hopen

def providerTag : Tag := ⟨⟨"provider".toList, by decide⟩, by decide⟩

def filesProvider (children : List Element) : Element :=
  .mk providerTag ⟨['7'], by decide⟩
    [⟨.android nameKey ⟨"01010003".toList, by decide⟩, .string ⟨"Files".toList, by decide⟩⟩,
      ⟨.android exportedKey ⟨"01010010".toList, by decide⟩,
        .typed ⟨"12".toList, by decide⟩ ⟨"ffffffff".toList, by decide⟩⟩] children

def filesManifest (children : List Element)
    (h : ∀ r ∈ Element.rowsIn children, r.2.is "application" = false ∧ r.2.is "provider" = false) :
    Manifest where
  spaces := []
  line := ⟨['2'], by decide⟩
  attrs := []
  before := []
  appLine := ⟨['5'], by decide⟩
  appAttrs := []
  components := [filesProvider children]
  after := []
  outside := by simp
  inside := by
    intro e he
    rw [List.mem_singleton.mp he]
    exact ⟨(by decide : (providerTag.name.text == "application".toList) = false), h⟩

def pathPermission : Element :=
  .mk ⟨⟨"path-permission".toList, by decide⟩, by decide⟩ ⟨['9'], by decide⟩
    [⟨.android permissionKey ⟨"01010006".toList, by decide⟩, .string ⟨"app.READ".toList, by decide⟩⟩] []

theorem providers_filesManifest (children : List Element) (h) :
    (filesManifest children h).providers = [filesProvider children] := rfl

theorem path_permission_hides_provider :
    filesProvider [pathPermission] ∈ (filesManifest [pathPermission] (by decide)).providers ∧
      (filesProvider [pathPermission]).Open 33 "Files".toList ∧
      ¬ Reports ((filesManifest [pathPermission] (by decide)).findings 33 [] [] []) "Files".toList := by
  refine ⟨?_, by decide +kernel, ?_⟩
  · rw [providers_filesManifest]
    exact mem_singleton_self _
  · rw [reports_findings, providers_filesManifest]
    rintro ⟨e, he, hopen⟩
    rw [mem_singleton.mp he] at hopen
    exact absurd hopen (by decide +kernel)

theorem files_provider_reported :
    Reports ((filesManifest [] (by decide)).findings 33 [] [] []) "Files".toList := by
  have hopen : (filesProvider []).Open 33 "Files".toList := by decide +kernel
  have hlooks : (filesProvider []).LooksOpen 33 "Files".toList := by decide +kernel
  have hname : ∀ n, (filesProvider []).Open 33 n ↔ n = "Files".toList := fun n =>
    ⟨fun h => some.inj (h.1.symm.trans hopen.1), fun h => h ▸ hopen⟩
  have hname' : ∀ n, (filesProvider []).LooksOpen 33 n ↔ n = "Files".toList := fun n =>
    ⟨fun h => some.inj (h.1.symm.trans hlooks.1), fun h => h ▸ hlooks⟩
  refine (((findings_reflect_iff _ _ _ _ _).mpr ⟨?_, ?_⟩).1 (filesProvider []) ?_ _).1
    hopen
  · simp only [providers_filesManifest, mem_singleton, exists_eq_left, hname, hname', implies_true]
  · simp only [providers_filesManifest, mem_singleton, forall_eq, hopen.2.2, false_implies,
      implies_true]
  · simp [providers_filesManifest]

end Manifest

end Morf.Apk
