import Mathlib.Algebra.Group.Nat.Defs
import Morf.Detect.Attribution

/-! From a line that ripgrep prints to its findings: where they are placed, and what can be said
of each of them. -/

namespace Morf.Detect

open Morf.Lib
open List Option Text

theorem findingsForLine_ne_nil (c : PatternCache) (fileLocation : Text) (lineNo : Int)
    (content : Text) :
    (findingsForLine c fileLocation lineNo content : List (SecretModel S)) ≠ [] := by
  rw [findingsForLine]
  split
  · exact cons_ne_nil _ _
  · rename_i hne
    exact fun h => hne (map_eq_nil_iff.mp h)

/-- The callback `onLine` of `scanCorpusWithOpts` on the bytes that it is given: `file`, `lineno`
and `content` between the first two colons and after them. -/
def parseHit (b : Text) : Option (Text × Int × Text) := do
  let (fileLocation, rest) ← cut ':' (trimSpace b)
  let (number, content) ← cut ':' rest
  let lineNo ← atoi number
  return (fileLocation, lineNo, trimSpace content)

def scanHit (c : PatternCache) (b : Text) : List (SecretModel S) :=
  match parseHit b with
  | none => []
  | some (fileLocation, lineNo, content) => findingsForLine c fileLocation lineNo content

theorem parseHit_some {content : Text} (h : parseHit b = some (fileLocation, lineNo, content)) :
    ':' ∉ fileLocation ∧ (∀ x ∈ fileLocation.head?, isSpace x = false) ∧ lineNo < 2 ^ 63 := by
  simp only [parseHit, bind_eq_bind, bind_eq_some_iff, Option.pure_def,
    some.injEq, Prod.mk.injEq, Prod.exists] at h
  obtain ⟨v, w, hv, number, content', hw, z, hz, rfl, rfl, -⟩ := h
  obtain ⟨hcolon, hline⟩ := cut_eq_some hv
  refine ⟨hcolon, fun x hx => ?_, lt_of_atoi hz⟩
  have hhead : x ∈ (trimSpace b).head? := by
    rw [hline, head?_append]
    exact or_eq_some_iff.mpr (.inl hx)
  exact head_trimSpace x hhead

theorem parseHit_rgLine (hcolon : ':' ∉ path) (hspace : ∀ x ∈ path.head?, isSpace x = false)
    (hn : n < 2 ^ 63) (content : Text) :
    parseHit (rgLine path n content) = some (path, ↑n, trimSpace content) := by
  have hdigits : ':' ∉ Nat.toDigits 10 n := fun h =>
    absurd (Nat.isDigit_of_mem_toDigits (by decide) (by decide) h) (by decide)
  have htrim : trimSpace (rgLine path n content) = rgLine path n (trimRight content) := by
    rw [rgLine, trimSpace_eq_trimRight, trimRight_append (by decide),
      trimRight_append (by decide), rgLine]
    intro x hx
    rw [head?_append, mem_def, or_eq_some_iff] at hx
    rcases hx with hx | ⟨-, hx⟩
    · exact hspace x hx
    · cases hx
      decide
  have hcut : ∀ {v : Text} (w : Text), ':' ∉ v → cut ':' (v ++ ':' :: w) = some (v, w) := by
    intro v w hv
    rw [cut_append hv]
    simp [cut]
  have hatoi : atoi (Nat.toDigits 10 n) = some (n : Int) := by
    rw [atoi_of_digits (digits_toDigits n), if_pos (by exact_mod_cast hn)]
  rw [parseHit, htrim, rgLine]
  simp only [hcut _ hcolon, hcut _ hdigits, hatoi, trimSpace_trimRight, bind_eq_bind,
    bind_some, Option.pure_def]

theorem lineNo_of_mem {content : Text} (hf : f ∈ findingsForLine c fileLocation lineNo content) :
    f.lineNo = lineNo := by
  rw [findingsForLine] at hf
  split at hf
  · rw [mem_singleton.mp hf]
    rfl
  · obtain ⟨s, -, rfl⟩ := List.mem_map.mp hf
    rfl

/-- A printed line becomes the findings of its content, under its path and its number, exactly if
the path has no colon and does not start with white space and the number is an `int`. -/
theorem hit_placed_iff (c : PatternCache) (path content : Text) (n : Nat) :
    (scanHit c (rgLine path n content) : List (SecretModel S)) =
        findingsForLine c path n (trimSpace content) ↔
      ':' ∉ path ∧ (∀ x ∈ path.head?, isSpace x = false) ∧ n < 2 ^ 63 := by
  constructor
  · intro h
    obtain ⟨f, fs, hf⟩ := exists_cons_of_ne_nil
      (findingsForLine_ne_nil (S := S) c path n (trimSpace content))
    have hmem : f ∈ (findingsForLine c path n (trimSpace content) : List (SecretModel S)) :=
      hf ▸ mem_cons_self
    have hread := hmem
    rw [← h, scanHit] at hread
    split at hread
    · cases hread
    · rename_i fileLocation lineNo content' hparse
      obtain ⟨hcolon, hspace, hrange⟩ := parseHit_some hparse
      rw [← location_of_mem hread, location_of_mem hmem] at hcolon hspace
      rw [← lineNo_of_mem hread, lineNo_of_mem hmem] at hrange
      exact ⟨hcolon, hspace, by exact_mod_cast hrange⟩
  · rintro ⟨hcolon, hspace, hn⟩
    rw [scanHit, parseHit_rgLine hcolon hspace hn]

/-- A hit in a file with a colon in its name is dropped. -/
theorem colon_path_dropped :
    (scanHit keyCache (rgLine "assets/a:b.txt".toList 3 "k".toList) : List (SecretModel Unit)) = [] := by
  decide +kernel

section Usable

theorem extractSecret_isInfix (content : Text) : extractSecret content <:+: content := by
  rw [extractSecret]
  split
  · refine (trimSpace_isInfix _).trans ?_
    exact (drop_suffix _ _).isInfix.trans (List.take_prefix _ _).isInfix
  · split
    · have hquote := List.takeWhile_prefix (· ≠ '"') (l := (content.dropWhile (· ≠ '"')).drop 1)
      refine hquote.isInfix.trans ?_
      exact (drop_suffix _ _).isInfix.trans (dropWhile_suffix _).isInfix
    · split
      · exact (trimSpace_isInfix _).trans (afterLast_suffix ':' content).isInfix
      · exact infix_rfl

theorem secretValue_isInfix (span : Text) : secretValue span <:+: span := by
  rw [secretValue]
  split
  · exact infix_rfl
  · exact extractSecret_isInfix span

theorem secretValue_eq_nil {span : Text} : secretValue span = [] ↔ span = [] := by
  constructor
  · intro h
    rw [secretValue] at h
    split at h
    · exact h
    · rename_i hblank
      rw [h] at hblank
      exact absurd rfl hblank
  · rintro rfl
    exact length_eq_zero_iff.mp (Nat.le_zero.mp (secretValue_length []))

def validConfidence (confidence : String) : Bool := confidence ∈ ["low", "medium", "high"]

structure Usable (content : Text) (f : SecretModel S) : Prop where
  nonempty : f.secretString ≠ []
  occurs : f.secretString <:+: content
  confidence : validConfidence f.secretConfidence = true

/-- The search reports `span` as a match of the pattern `i`: the search for the combined
expression where there is one, and the pattern's own search otherwise. -/
def Attributed (c : PatternCache) (content : Text) (i : Nat) (span : Text) : Prop :=
  match c.combined with
  | some _ => ∃ p, Regex.ReportsAs (compiledFrom 0 c.patterns) content p i span
  | none => ∃ r, (i, r) ∈ compiledFrom 0 c.patterns ∧ ∃ p, r.Reports content p span

variable {content : Text}

theorem mem_findAll_iff {r : Regex} {span : Text} :
    (∃ m ∈ r.findAll content, m.groups = gs ∧ m.span = span) ↔
      ∃ p, r.reportAt content p = some (gs, span) := by
  rw [← Regex.mem_reportsFrom, ← Regex.findAll_eq, List.mem_map]
  simp only [Regex.Match.found, Prod.mk.injEq]

theorem mem_spans (hc : c.combined = buildCombinedRegex u c.patterns) :
    s ∈ spans c content ↔ ∃ i, s.1 = some i ∧ Attributed c content i s.2 := by
  obtain ⟨o, span⟩ := s
  unfold spans Attributed
  cases hk : c.combined with
  | some k =>
    obtain rfl := buildCombinedRegex_some (hc.symm.trans hk)
    simp only [List.mem_map, Prod.mk.injEq]
    constructor
    · rintro ⟨m, hm, howner, rfl⟩
      obtain ⟨p, hp⟩ := mem_findAll_iff.mp ⟨m, hm, rfl, rfl⟩
      obtain ⟨i, -, -, -, hi⟩ := Regex.union_first (Regex.reportAt_eq_some.mp hp).2.1
      exact ⟨i, howner.symm.trans hi, p, m.groups, hp, hi⟩
    · rintro ⟨i, rfl, p, gs, hp, hi⟩
      obtain ⟨m, hm, rfl, rfl⟩ := mem_findAll_iff.mpr ⟨p, hp⟩
      exact ⟨m, hm, hi, rfl⟩
  | none =>
    simp only [mem_flatMap, List.mem_map, Prod.mk.injEq, Prod.exists]
    constructor
    · rintro ⟨i, r, hr, m, hm, rfl, rfl⟩
      obtain ⟨p, hp⟩ := mem_findAll_iff.mp ⟨m, hm, rfl, rfl⟩
      exact ⟨i, rfl, r, hr, p, m.groups, hp⟩
    · rintro ⟨i, rfl, r, hr, p, gs, hp⟩
      obtain ⟨m, hm, -, rfl⟩ := mem_findAll_iff.mpr ⟨p, hp⟩
      exact ⟨i, r, hr, m, hm, rfl, rfl⟩

theorem Reports.isInfix {r : Regex} {span : Text} (h : r.Reports content p span) :
    span <:+: content := by
  obtain ⟨-, ⟨gs, hmatch⟩, -⟩ := Regex.reports_iff.mp h
  have hprefix := hmatch.prefix
  rw [Regex.place_rest] at hprefix
  exact hprefix.isInfix.trans (drop_suffix p content).isInfix

theorem Attributed.isInfix {span : Text} (h : Attributed c content i span) : span <:+: content := by
  rw [Attributed] at h
  split at h
  · obtain ⟨p, gs, hp, -⟩ := h
    exact Reports.isInfix ⟨gs, hp⟩
  · obtain ⟨r, -, p, hp⟩ := h
    exact Reports.isInfix hp

theorem validConfidence_finding {span : Text} :
    validConfidence (finding c fileLocation lineNo o span : SecretModel S).secretConfidence = true ↔
      ∀ q, (o.bind fun i => c.patterns[i]?) = some q → validConfidence q.confidence = true := by
  rw [finding]
  cases o.bind fun i => c.patterns[i]? with
  | none => simp [validConfidence]
  | some q => simp

theorem usable_finding_iff {span : Text} (hspan : span <:+: content) :
    Usable content (finding c fileLocation lineNo o span : SecretModel S) ↔
      span ≠ [] ∧ ∀ q, (o.bind fun i => c.patterns[i]?) = some q →
        validConfidence q.confidence = true := by
  rw [← validConfidence_finding (S := S) (c := c) (o := o)]
  constructor
  · rintro ⟨hnonempty, -, hconfidence⟩
    exact ⟨fun h => hnonempty (secretValue_eq_nil.mpr h), hconfidence⟩
  · rintro ⟨hnonempty, hconfidence⟩
    exact ⟨fun h => hnonempty (secretValue_eq_nil.mp h),
      (secretValue_isInfix span).trans hspan, hconfidence⟩

theorem usable_iff (hc : c.combined = buildCombinedRegex u c.patterns) (hblank : content ≠ [])
    (fileLocation : Text) (lineNo : Int) :
    (∀ f ∈ (findingsForLine c fileLocation lineNo content : List (SecretModel S)), Usable content f) ↔
      (∀ i span, Attributed c content i span →
        span ≠ [] ∧ ∀ q, c.patterns[i]? = some q → validConfidence q.confidence = true) ∧
      ((∀ i span, ¬ Attributed c content i span) →
        ∀ q, (c.patterns.find? fun p => p.compiled.isNone) = some q →
          validConfidence q.confidence = true) := by
  have hforeign : ((foreignIdx c).bind fun i => c.patterns[i]?) =
      c.patterns.find? fun p => p.compiled.isNone := find?_eq_bind_findIdx?_getElem?.symm
  rw [findingsForLine]
  split
  · rename_i hnone
    have hnothing : ∀ i span, ¬ Attributed c content i span := fun i span h => by
      have hmem : (some i, span) ∈ spans c content := (mem_spans hc).mpr ⟨i, rfl, h⟩
      rw [hnone] at hmem
      cases hmem
    rw [forall_mem_singleton, usable_finding_iff infix_rfl, hforeign]
    constructor
    · rintro ⟨-, hconfidence⟩
      exact ⟨fun i span h => absurd h (hnothing i span), fun _ => hconfidence⟩
    · rintro ⟨-, hconfidence⟩
      exact ⟨hblank, hconfidence hnothing⟩
  · rename_i hsome
    rw [List.forall_mem_map]
    constructor
    · intro h
      refine ⟨fun i span hspan => ?_, fun hnothing => absurd ?_ hsome⟩
      · have hmem : (some i, span) ∈ spans c content := (mem_spans hc).mpr ⟨i, rfl, hspan⟩
        exact (usable_finding_iff hspan.isInfix).mp (h _ hmem)
      · refine eq_nil_iff_forall_not_mem.mpr fun s hs => ?_
        obtain ⟨i, -, hi⟩ := (mem_spans hc).mp hs
        exact hnothing i s.2 hi
    · rintro ⟨h, -⟩ ⟨o, span⟩ hs
      obtain ⟨i, rfl, hspan⟩ := (mem_spans hc).mp hs
      exact (usable_finding_iff hspan.isInfix).mpr (h i span hspan)

theorem buildPatternCache_ok {set : PatternSet}
    (h : buildPatternCache E files maxMod platform = .ok set) :
    ∃ u, set.cache.combined = buildCombinedRegex u set.cache.patterns := by
  rw [buildPatternCache] at h
  split at h
  · cases h
  · obtain rfl := Except.ok.inj h
    exact ⟨_, rfl⟩

/-- A line always has a finding.  All of its findings are usable exactly if no match is empty and
every pattern that a match belongs to has a confidence of the enumeration, as has, where nothing
matches, the first pattern that Go does not compile. -/
theorem findings_usable_iff {E : Engine} {files : List RuleFile} {maxMod : Nat}
    {platform : Platform} {set : PatternSet} (hset : buildPatternCache E files maxMod platform = .ok set)
    {content : Text} (hblank : trimSpace content ≠ []) (fileLocation : Text) (lineNo : Int) :
    (findingsForLine set.cache fileLocation lineNo content : List (SecretModel S)) ≠ [] ∧
    ((∀ f ∈ (findingsForLine set.cache fileLocation lineNo content : List (SecretModel S)),
        Usable content f) ↔
      (∀ i span, Attributed set.cache content i span →
        span ≠ [] ∧ ∀ q, set.cache.patterns[i]? = some q → validConfidence q.confidence = true) ∧
      ((∀ i span, ¬ Attributed set.cache content i span) →
        ∀ q, (set.cache.patterns.find? fun p => p.compiled.isNone) = some q →
          validConfidence q.confidence = true)) := by
  obtain ⟨u, hc⟩ := buildPatternCache_ok hset
  have hcontent : content ≠ [] := by
    rintro rfl
    exact hblank rfl
  exact ⟨findingsForLine_ne_nil _ _ _ _, usable_iff hc hcontent fileLocation lineNo⟩

def smallEngine : Engine where
  compile regex :=
    if regex = "x*" then some (.star true (Regex.char 'x'))
    else if regex = "x" then some (Regex.char 'x') else none
  unionCompiles _ := true

def smallFile (regex confidence : String) : RuleFile :=
  ⟨"small.yaml".toList, some { patterns := [⟨"small", regex, confidence, "", none⟩] }, 0⟩

def smallPattern (regex confidence : String) : PatternInfo :=
  ⟨"small", regex, confidence, "any", "", smallEngine.compile regex⟩

def smallSet (regex confidence : String) : PatternSet :=
  let patterns := [smallPattern regex confidence]
  ⟨⟨patterns, buildCombinedRegex true patterns⟩, patternsTxt patterns, 0⟩

theorem smallSet_built (regex confidence : String) :
    buildPatternCache smallEngine [smallFile regex confidence] 0 .any =
      .ok (smallSet regex confidence) := rfl

theorem small_pattern_usable :
    (findingsForLine (smallSet "x" "high").cache [] 1 "ax".toList : List (SecretModel Unit)) ≠ [] ∧
      ∀ f ∈ (findingsForLine (smallSet "x" "high").cache [] 1 "ax".toList : List (SecretModel Unit)),
        Usable "ax".toList f := by
  have hblank : trimSpace "ax".toList ≠ [] := by decide
  obtain ⟨hne, hiff⟩ := findings_usable_iff (S := Unit) (smallSet_built "x" "high") hblank [] 1
  refine ⟨hne, hiff.mpr ⟨fun i span h => ?_, fun _ q hq => ?_⟩⟩
  · have hmem : (some i, span) ∈ spans (smallSet "x" "high").cache "ax".toList :=
      (mem_spans (u := true) rfl).mpr ⟨i, rfl, h⟩
    have hspans : spans (smallSet "x" "high").cache "ax".toList = [(some 0, ['x'])] := by
      decide +kernel
    rw [hspans, mem_singleton] at hmem
    obtain ⟨hi, rfl⟩ := Prod.mk.inj hmem
    obtain rfl := some.inj hi
    exact ⟨cons_ne_nil _ _, fun q hq => some.inj hq ▸ rfl⟩
  · cases hq

/-- An expression that matches the empty text, in an entry without a confidence. -/
theorem empty_match_unusable :
    buildPatternCache smallEngine [smallFile "x*" ""] 0 .any = .ok (smallSet "x*" "") ∧
      (findingsForLine (smallSet "x*" "").cache [] 1 "a".toList : List (SecretModel Unit)).map
        (fun f => (f.secretString, f.secretConfidence)) = [([], ""), ([], "")] := by
  exact ⟨rfl, by decide +kernel⟩

end Usable

end Morf.Detect
