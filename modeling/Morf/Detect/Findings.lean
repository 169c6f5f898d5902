import Morf.Lib.Path
import Morf.Lib.Regex
import Morf.Lib.Text

/-! `detect/detect.go`: from the lines that ripgrep reports to findings, and the removal of
duplicates among them. -/

namespace Morf.Detect

open Morf.Lib
open List Text

abbrev Text := List Char

/-- `compiled` is `none` for an expression that Go's `regexp` refuses. -/
structure PatternInfo where
  name : String
  regex : String
  confidence : String
  platform : String := "any"
  masvs : String := ""
  compiled : Option Regex
  deriving DecidableEq

structure Combined where
  regex : Regex
  groupToPattern : List (Option Nat)
  deriving DecidableEq

structure PatternCache where
  patterns : List PatternInfo
  combined : Option Combined

def compiledFrom : Nat → List PatternInfo → List (Nat × Regex)
  | _, [] => []
  | i, p :: ps =>
    match p.compiled with
    | none => compiledFrom (i + 1) ps
    | some r => (i, r) :: compiledFrom (i + 1) ps

/-- `unionCompiles` is the outcome of compiling the union of all expressions. -/
def buildCombinedRegex (unionCompiles : Bool) (patterns : List PatternInfo) : Option Combined :=
  let rs := compiledFrom 0 patterns
  if rs = [] ∨ unionCompiles = false then none
  else some { regex := Regex.union rs, groupToPattern := Regex.labels rs }

/-- A score is whatever the precision stage computes with floating-point numbers. -/
structure SecretModel (S : Type) where
  type : String
  lineNo : Int
  fileLocation : Text
  secretType : String
  secretString : Text
  secretConfidence : String
  masvsID : String
  tier : String := ""
  score : Option S := none

def extractSecret (content : Text) : Text :=
  let first := content.idxOf '>' + 1
  let last := content.length - 1 - content.reverse.idxOf '<'
  if '>' ∈ content ∧ '<' ∈ content ∧ first < last then
    trimSpace ((content.take last).drop first)
  else if 2 ≤ content.count '"' then
    ((content.dropWhile (· ≠ '"')).drop 1).takeWhile (· ≠ '"')
  else if ':' ∈ content then Text.trimSpace (Text.afterLast ':' content)
  else content

/-- The value of a finding is never blank unless its span is. -/
def secretValue (span : Text) : Text :=
  let value := extractSecret span
  if Text.trimSpace value = [] then span else value

theorem extractSecret_length (content : Text) : (extractSecret content).length ≤ content.length := by
  rw [extractSecret]
  split
  · have := Text.length_trimSpace_le ((content.take (content.length - 1 -
      content.reverse.idxOf '<')).drop (content.idxOf '>' + 1))
    simp only [length_drop, length_take] at this
    omega
  · split
    · have h₁ := (List.takeWhile_prefix (· ≠ '"')
        (l := (content.dropWhile (· ≠ '"')).drop 1)).length_le
      have h₂ := (dropWhile_suffix (· ≠ '"') (l := content)).length_le
      rw [length_drop] at h₁
      omega
    · split
      · have h₁ := length_trimSpace_le (afterLast ':' content)
        have h₂ := (List.takeWhile_prefix (· ≠ ':') (l := content.reverse)).length_le
        rw [length_reverse] at h₂
        rw [afterLast, length_reverse] at h₁
        exact Nat.le_trans h₁ h₂
      · exact Nat.le_refl _

theorem secretValue_length (span : Text) : (secretValue span).length ≤ span.length := by
  rw [secretValue]
  split
  · exact Nat.le_refl _
  · exact extractSecret_length span

def finding (c : PatternCache) (fileLocation : Text) (lineNo : Int) (patternIdx : Option Nat)
    (span : Text) : SecretModel S :=
  let p := patternIdx.bind fun i => c.patterns[i]?
  let secretType := (p.map PatternInfo.name).getD "unattributed"
  { type := secretType
    lineNo
    fileLocation
    secretType
    secretString := secretValue span
    secretConfidence := (p.map PatternInfo.confidence).getD "low"
    masvsID := (p.map PatternInfo.masvs).getD "" }

def spans (c : PatternCache) (content : Text) : List (Option Nat × Text) :=
  match c.combined with
  | some k => (k.regex.findAll content).map fun m =>
      (Regex.owner k.groupToPattern m.groups, m.span)
  | none => (compiledFrom 0 c.patterns).flatMap fun p =>
      (p.2.findAll content).map fun m => (some p.1, m.span)

/-- The owner of a line that only an expression foreign to Go can have matched. -/
def foreignIdx (c : PatternCache) : Option Nat := c.patterns.findIdx? fun p => p.compiled.isNone

def findingsForLine (c : PatternCache) (fileLocation : Text) (lineNo : Int) (content : Text) :
    List (SecretModel S) :=
  match spans c content with
  | [] => [finding c fileLocation lineNo (foreignIdx c) content]
  | ss => ss.map fun s => finding c fileLocation lineNo s.1 s.2

def maxLineBytes : Nat := 8 * 1024 * 1024

def truncateLine : Nat → Text → Text
  | _, [] => []
  | room, x :: xs => if x.utf8Size ≤ room then x :: truncateLine (room - x.utf8Size) xs else []

def readLine (b : Text) : Option (Text × Int × Text) := do
  let (fileLocation, rest) ← cut ':' (trimSpace (truncateLine maxLineBytes b))
  let (number, content) ← cut ':' rest
  let lineNo ← atoi number
  return (fileLocation, lineNo, trimSpace content)

def onLine (c : PatternCache) (b : Text) : List (SecretModel S) :=
  match readLine b with
  | none => []
  | some (fileLocation, lineNo, content) => findingsForLine c fileLocation lineNo content

inductive ScanError
  | ripgrep (exit : Int)
  deriving DecidableEq

/-- `scanCorpusWithOpts`: `exit` is the exit status of ripgrep and `lines` its output; the
scan is empty without patterns or search roots. -/
def scanCorpus (cache : Option PatternCache) (rootsExist : Bool) (lines : List Text) (exit : Int) :
    Except ScanError (List (SecretModel S)) :=
  match cache with
  | none => .ok []
  | some c =>
    if rootsExist = false then .ok []
    else if exit = 0 then .ok (lines.flatMap (onLine c))
    else if exit = 1 then .ok []
    else .error (.ripgrep exit)

def SecretModel.key (s : SecretModel S) : String × Text := (s.secretType, s.secretString)

def sanitizeFrom (seen : List (String × Text)) : List (SecretModel S) → List (SecretModel S)
  | [] => []
  | s :: ss =>
    if s.key ∈ seen then sanitizeFrom seen ss else s :: sanitizeFrom (s.key :: seen) ss

def sanitizeSecrets : List (SecretModel S) → List (SecretModel S) := sanitizeFrom []

theorem mem_sanitizeFrom : s ∈ sanitizeFrom seen l ↔
      s.key ∉ seen ∧ ∃ l₁ l₂, l = l₁ ++ s :: l₂ ∧ ∀ t ∈ l₁, t.key ≠ s.key := by
  induction l generalizing seen with
  | nil => simp [sanitizeFrom]
  | cons x xs ih =>
    have hsplit : (∃ l₁ l₂, x :: xs = l₁ ++ s :: l₂ ∧ ∀ t ∈ l₁, t.key ≠ s.key) ↔
        x = s ∨ x.key ≠ s.key ∧ ∃ l₁ l₂, xs = l₁ ++ s :: l₂ ∧ ∀ t ∈ l₁, t.key ≠ s.key := by
      constructor
      · rintro ⟨l₁, l₂, h, hl₁⟩
        cases l₁ with
        | nil => exact .inl (cons.inj h).1
        | cons y ys =>
          obtain ⟨rfl, rfl⟩ := cons.inj h
          exact .inr ⟨hl₁ x (by simp), ys, l₂, rfl, fun t ht => hl₁ t (by simp [ht])⟩
      · rintro (rfl | ⟨hx, l₁, l₂, rfl, hl₁⟩)
        · exact ⟨[], xs, rfl, nofun⟩
        · exact ⟨x :: l₁, l₂, rfl, by simpa using ⟨hx, hl₁⟩⟩
    rw [sanitizeFrom, hsplit]
    split
    · rename_i hx
      rw [ih]
      constructor
      · exact fun ⟨hs, h⟩ => ⟨hs, .inr ⟨fun he => hs (he ▸ hx), h⟩⟩
      · rintro ⟨hs, rfl | ⟨-, h⟩⟩
        · exact absurd hx hs
        · exact ⟨hs, h⟩
    · rename_i hx
      rw [mem_cons, ih, mem_cons, not_or]
      constructor
      · rintro (rfl | ⟨⟨hne, hs⟩, h⟩)
        · exact ⟨hx, .inl rfl⟩
        · exact ⟨hs, .inr ⟨Ne.symm hne, h⟩⟩
      · rintro ⟨hs, rfl | ⟨hne, h⟩⟩
        · exact .inl rfl
        · exact .inr ⟨⟨Ne.symm hne, hs⟩, h⟩

theorem mem_sanitizeSecrets :
    s ∈ sanitizeSecrets l ↔ ∃ l₁ l₂, l = l₁ ++ s :: l₂ ∧ ∀ t ∈ l₁, t.key ≠ s.key := by
  simp [sanitizeSecrets, mem_sanitizeFrom]

theorem exists_first_key {l : List (SecretModel S)} (ht : t ∈ l) :
    ∃ l₁ s l₂, l = l₁ ++ s :: l₂ ∧ s.key = t.key ∧ ∀ s' ∈ l₁, s'.key ≠ t.key := by
  cases hf : l.find? fun s => s.key = t.key with
  | none => simpa using find?_eq_none.mp hf t ht
  | some s =>
    obtain ⟨hs, l₁, l₂, hl, hl₁⟩ := find?_eq_some_iff_append.mp hf
    exact ⟨l₁, s, l₂, hl, by simpa using hs, fun s' hs' => by simpa using hl₁ s' hs'⟩

/-! The pattern files of `detect/detect.go` and `utils/pattern.go`: which patterns a scan of a
platform uses, and the cache of them. -/

inductive Platform
  | ios
  | android
  | any
  deriving DecidableEq

namespace Platform

def name : Platform → String
  | .ios => "ios"
  | .android => "android"
  | .any => "any"

end Platform

def normalizePlatform (s : Text) : Platform :=
  let s := (trimSpace s).map toLower
  if s = "ios".toList then .ios else if s = "android".toList then .android else .any

def filePlatform (fileName declared : Text) : Platform :=
  match normalizePlatform declared with
  | .any =>
    let lower := fileName.map toLower
    if "ios-".toList.isPrefixOf lower then .ios
    else if "android-".toList.isPrefixOf lower then .android
    else .any
  | p => p

def patternApplies (patternPlatform scanPlatform : Platform) : Bool :=
  patternPlatform = .any || patternPlatform = scanPlatform

/-- An entry of a pattern file.  The flag is absent where the file does not set it. -/
structure PatternEntry where
  name : String
  regex : String
  confidence : String
  masvs : String := ""
  enabled : Option Bool := none
  deriving DecidableEq

structure SecretPatterns where
  platform : Text := []
  masvs : String := ""
  patterns : List PatternEntry
  deriving DecidableEq

/-- A file of the pattern directory.  `doc` is `none` where the YAML does not decode. -/
structure RuleFile where
  name : Text
  doc : Option SecretPatterns
  modTime : Nat
  deriving DecidableEq

def isYAML (name : Text) : Bool :=
  ".yaml".toList.isSuffixOf name || ".yml".toList.isSuffixOf name

/-- What Go's `regexp` makes of an expression, and whether it takes the union of several. -/
structure Engine where
  compile : String → Option Regex
  unionCompiles : List PatternInfo → Bool

variable (E : Engine)

def PatternEntry.info (fp : Platform) (fileMASVS : String) (p : PatternEntry) : PatternInfo :=
  { name := p.name
    regex := p.regex
    confidence := p.confidence
    platform := fp.name
    masvs := if p.masvs = "" then fileMASVS else p.masvs
    compiled := E.compile p.regex }

def filePatterns (platform : Platform) (f : RuleFile) : List PatternInfo :=
  match f.doc with
  | none => []
  | some d =>
    let fp := filePlatform f.name d.platform
    if isYAML f.name && patternApplies fp platform then
      (d.patterns.filter fun p => p.enabled ≠ some false).map (PatternEntry.info E fp d.masvs)
    else []

structure PatternSet where
  cache : PatternCache
  patternsTxt : String
  builtFrom : Nat

inductive PatternError
  | noPatterns (platform : Platform)
  deriving DecidableEq

def patternsTxt (ps : List PatternInfo) : String := String.join (ps.map fun p => p.regex ++ "\n")

def buildPatternCache (files : List RuleFile) (maxMod : Nat) (platform : Platform) :
    Except PatternError PatternSet :=
  match files.flatMap (filePatterns E platform) with
  | [] => .error (.noPatterns platform)
  | ps => .ok
    { cache := { patterns := ps, combined := buildCombinedRegex (E.unionCompiles ps) ps }
      patternsTxt := patternsTxt ps
      builtFrom := maxMod }

def maxModTime (files : List RuleFile) : Nat := files.foldl (fun m f => max m f.modTime) 0

abbrev Caches := Platform → Option PatternSet

def getPatternCache (files : List RuleFile) (caches : Caches) (platform : Platform) :
    Except PatternError PatternSet × Caches :=
  let maxMod := maxModTime files
  let build := match buildPatternCache E files maxMod platform with
    | .error e => (.error e, caches)
    | .ok built => (.ok built, Function.update caches platform (some built))
  match caches platform with
  | none => build
  | some cached => if maxMod ≤ cached.builtFrom then (.ok cached, caches) else build

end Morf.Detect
