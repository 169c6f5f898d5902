import Morf.Lockfile.Format

/-! `ParseYarnLock` of `apk/lockfiles.go`. -/

namespace Morf.Lockfile

open Morf.Lib Morf.Lib.Assign Morf.Sbom
open Morf.Ios (hasSuffix)
open scoped List
open List Text

def berryKey : Text := "__metadata:".toList

def isYarnChar (c : Char) : Bool := c ≠ '@' ∧ c ≠ '"'

def yarnEntryName (s : Text) : Option Text :=
  let s := if s.head? = some '"' then s.drop 1 else s
  let scope := if s.head? = some '@' then ['@'] else []
  let s := s.drop scope.length
  let name := s.takeWhile isYarnChar
  if name ≠ [] ∧ (s.dropWhile isYarnChar).head? = some '@' then some (scope ++ name) else none

def firstSpecifier (line : Line) : Text :=
  trim ['"'] (Text.trimSpace (line.takeWhile (· ≠ ',')))

def versionField : Text := ['v', 'e', 'r', 's', 'i', 'o', 'n']

def yarnVersion (line : Line) : Text :=
  let rest := trimPrefix versionField (Text.trimSpace line)
  let rest := Text.trimSpace rest
  let rest := trimPrefix [':'] rest
  let rest := Text.trimSpace rest
  trim ['"'] rest

structure YarnScan where
  currentPkg : Text
  out : Versions

def yarnStep (s : YarnScan) (line : Line) : YarnScan :=
  if line = [] ∨ line.head? = some '#' then { s with currentPkg := [] }
  else if line.head? ≠ some ' ' ∧ hasSuffix (trimSpace line) ":" then
    { s with currentPkg := (yarnEntryName (firstSpecifier line)).getD [] }
  else if s.currentPkg ≠ [] ∧ [' ', ' '] ++ versionField <+: line then
    let rest := yarnVersion line
    if rest ≠ [] then { s with out := assignNew s.out (s.currentPkg, rest) } else s
  else s

def parseYarnLock (data : Text) : Versions :=
  (((scanLines data).takeWhile fun line => trimSpace line ≠ berryKey).foldl yarnStep
    ⟨[], fun _ => none⟩).out

structure IsYarnName (base : Text) : Prop where
  ne_nil : base ≠ []
  plain : ∀ c ∈ base, c ∉ ['@', '"', '\x27', ',', ':'] ∧ Text.isSpace c = false

def IsGap (line : Line) : Prop := line = [] ∨ line.head? = some '#'

structure IsYarnField (line : Line) : Prop where
  indented : line.head? = some ' '
  other : ¬ [' ', ' '] ++ versionField <+: line
  classic : Text.trimSpace line ≠ berryKey

/-- A block, with the lines up to the next one.  A line that is not indented ends the block, so there
is none before the version. -/
structure YarnBlock where
  hasScope : Bool
  base : Text
  quoted : Bool
  /-- What follows the name in the specifiers. -/
  specifiers : Text
  fields : List Line
  version : Text
  rest : List Line
  isName : IsYarnName base
  isVersion : IsVersion version
  bare : quoted = false → hasScope = false → base.head? ≠ some '#'
  isField : ∀ l ∈ fields, IsYarnField l
  isRest : ∀ l ∈ rest, IsYarnField l ∨ IsGap l

namespace YarnBlock

def scope (b : YarnBlock) : Text := if b.hasScope then ['@'] else []

def name (b : YarnBlock) : Text := b.scope ++ b.base

def quote (b : YarnBlock) : Text := if b.quoted then ['"'] else []

def header (b : YarnBlock) : Line := b.quote ++ b.name ++ '@' :: (b.specifiers ++ [':'])

def versionLine (b : YarnBlock) : Line :=
  ' ' :: ' ' :: (versionField ++ ' ' :: '"' :: (b.version ++ ['"']))

def lines (b : YarnBlock) : List Line := b.header :: (b.fields ++ b.versionLine :: b.rest)

end YarnBlock

open YarnBlock

structure YarnLock where
  gaps : List Line
  blocks : List YarnBlock
  isGap : ∀ l ∈ gaps, IsGap l
  isLine : ∀ l ∈ gaps ++ blocks.flatMap lines, IsLine l

namespace YarnLock

def text (d : YarnLock) : Text := printLines (d.gaps ++ d.blocks.flatMap lines)

def firstVersions (d : YarnLock) : Versions := fun name =>
  (d.blocks.find? fun b => b.name = name).map version

end YarnLock

section Header

variable (b : YarnBlock)

theorem yarnName_plain : b.name ≠ [] ∧
    ∀ c ∈ b.name, c ∉ ['"', ','] ∧ Text.isSpace c = false := by
  have hbase : ∀ c ∈ b.base, c ∉ ['"', ','] ∧ isSpace c = false := by
    intro c hc
    obtain ⟨hplain, hspace⟩ := b.isName.plain c hc
    exact ⟨fun h => hplain (by revert h; simp; tauto), hspace⟩
  refine ⟨fun h => b.isName.ne_nil (append_eq_nil_iff.mp h).2, ?_⟩
  rw [name, scope]
  cases b.hasScope with
  | true => exact forall_mem_cons.mpr ⟨by decide, hbase⟩
  | false => exact hbase

theorem yarnEntryName_name (rest : Text) : yarnEntryName (b.name ++ '@' :: rest) = some b.name := by
  have hchars : ∀ c ∈ b.base, c ≠ '@' ∧ c ≠ '"' := by
    intro c hc
    have hplain := (b.isName.plain c hc).1
    simp only [mem_cons, not_or] at hplain
    exact ⟨hplain.1, hplain.2.1⟩
  obtain ⟨htake, hdrop⟩ := takeWhile_run (p := isYarnChar)
    (fun c hc => decide_eq_true (hchars c hc)) (c := '@') (by decide) rest
  obtain ⟨x, base, hbase⟩ := exists_cons_of_ne_nil b.isName.ne_nil
  have hx := hchars x (by simp [hbase])
  have hquote : (b.name ++ '@' :: rest).head? ≠ some '"' := by
    rw [name, scope, hbase]
    cases b.hasScope with
    | true => simp
    | false => simpa using hx.2
  have hscope : (if (b.name ++ '@' :: rest).head? = some '@' then ['@'] else []) = b.scope := by
    rw [name, scope, hbase]
    cases b.hasScope with
    | true => simp
    | false => simpa using hx.1
  have hrest : (b.name ++ '@' :: rest).drop b.scope.length = b.base ++ '@' :: rest := by
    rw [name, append_assoc, drop_left]
  simp only [yarnEntryName, if_neg hquote, hscope, hrest, htake, hdrop]
  exact if_pos ⟨b.isName.ne_nil, rfl⟩

theorem quote_subset (hc : c ∈ b.quote) : c = '"' := by
  rw [YarnBlock.quote] at hc
  split at hc
  · exact mem_singleton.mp hc
  · exact absurd hc not_mem_nil

theorem header_plain : ∀ c ∈ b.quote ++ b.name, c ≠ ',' ∧ Text.isSpace c = false := by
  intro c hc
  rcases mem_append.mp hc with hc | hc
  · rw [quote_subset b hc]
    decide
  · obtain ⟨hc, hspace⟩ := (yarnName_plain b).2 c hc
    exact ⟨fun h => hc (by simp [h]), hspace⟩

theorem firstSpecifier_header : ∃ rest, firstSpecifier b.header = b.name ++ '@' :: rest := by
  have hfirst : b.header.takeWhile (· ≠ ',') =
      b.quote ++ b.name ++ '@' :: (b.specifiers ++ [':']).takeWhile (· ≠ ',') := by
    rw [YarnBlock.header, takeWhile_append_of_pos fun c hc =>
      decide_eq_true (header_plain b c hc).1, takeWhile_cons_of_pos (by decide)]
  have htrim : Text.trimSpace (b.header.takeWhile (· ≠ ',')) = b.quote ++ (b.name ++ ['@'] ++
      Text.trimRight ((b.specifiers ++ [':']).takeWhile (· ≠ ','))) := by
    rw [hfirst, Text.trimSpace_append (by simp [(yarnName_plain b).1]) fun c hc =>
      (header_plain b c hc).2]
    have hsign : ∀ u, Text.trimRight ('@' :: u) = '@' :: Text.trimRight u :=
      Text.trimRight_append (by decide) []
    simp [hsign]
  have hkept : ∀ c ∈ b.name ++ ['@'], c ∉ ['"'] := by
    intro c hc h
    rcases mem_append.mp hc with hc | hc
    · exact ((yarnName_plain b).2 c hc).1 (mem_append_left [','] h)
    · rw [mem_singleton.mp hc] at h
      revert h
      decide
  obtain ⟨rest, hrest⟩ := trim_keeps (fun c hc => mem_singleton.mpr (quote_subset b hc))
    (by simp) hkept (trimRight ((b.specifiers ++ [':']).takeWhile (· ≠ ',')))
  exact ⟨rest, by rw [firstSpecifier, htrim, hrest, append_assoc, singleton_append]⟩

theorem trimSpace_header : trimSpace b.header = b.header := by
  have hlast : trimRight ('@' :: (b.specifiers ++ [':'])) = '@' :: (b.specifiers ++ [':']) :=
    trimRight_concat (by decide) ('@' :: b.specifiers)
  rw [header, trimSpace_append (by simp [(yarnName_plain b).1]) fun c hc =>
    (header_plain b c hc).2, hlast]

theorem head_header : ∃ c rest, b.header = c :: rest ∧ c ≠ '#' ∧ c ≠ ' ' := by
  obtain ⟨x, base, hbase⟩ := exists_cons_of_ne_nil b.isName.ne_nil
  rw [header, quote, name, scope]
  cases hquoted : b.quoted with
  | true => exact ⟨'"', _, rfl, by decide, by decide⟩
  | false =>
    cases hscope : b.hasScope with
    | true => exact ⟨'@', _, rfl, by decide, by decide⟩
    | false =>
      refine ⟨x, _, by rw [hbase]; rfl, fun h => ?_, fun h => ?_⟩
      · exact b.bare hquoted hscope (by rw [hbase, h]; rfl)
      · have hspace := (b.isName.plain x (by simp [hbase])).2
        rw [h] at hspace
        revert hspace
        decide

end Header

section Step

theorem yarnStep_gap (h : IsGap line) : yarnStep s line = { s with currentPkg := [] } := if_pos h

theorem yarnStep_field (h : IsYarnField line) : yarnStep s line = s := by
  have hgap : ¬ (line = [] ∨ line.head? = some '#') := by
    rintro (rfl | hhash)
    · exact absurd h.indented (by simp)
    · exact absurd (h.indented.symm.trans hhash) (by decide)
  rw [yarnStep, if_neg hgap, if_neg fun hh => hh.1 h.indented, if_neg fun hv => h.other hv.2]

variable (b : YarnBlock)

theorem yarnStep_header : yarnStep s b.header = { s with currentPkg := b.name } := by
  obtain ⟨c, rest, hheader, hhash, hspace⟩ := head_header b
  obtain ⟨rest', hfirst⟩ := firstSpecifier_header b
  have hsuffix : hasSuffix (Text.trimSpace b.header) ":" = true := by
    rw [trimSpace_header]
    exact isSuffixOf_iff_suffix.mpr ⟨b.quote ++ b.name ++ '@' :: b.specifiers, by
      simp [YarnBlock.header]⟩
  have hgap : ¬ (b.header = [] ∨ b.header.head? = some '#') := by simp [hheader, hhash]
  have hhead : b.header.head? ≠ some ' ' := by simp [hheader, hspace]
  rw [yarnStep, if_neg hgap, if_pos ⟨hhead, hsuffix⟩, hfirst, yarnEntryName_name, Option.getD_some]

theorem trimSpace_versionLine :
    Text.trimSpace b.versionLine = versionField ++ ' ' :: '"' :: (b.version ++ ['"']) :=
  (Text.trimSpace_skip (w := [' ', ' ']) (Text.forall_of_all (by decide)) _).trans
    (trimSpace_framed (x := 'v') (by decide) (by decide)
      (['e', 'r', 's', 'i', 'o', 'n', ' ', '"'] ++ b.version))

theorem yarnVersion_versionLine : yarnVersion b.versionLine = b.version := by
  have hquoted : trimSpace ('"' :: (b.version ++ ['"'])) = '"' :: (b.version ++ ['"']) :=
    trimSpace_framed (by decide) (by decide) b.version
  have hvalue : trimSpace (' ' :: '"' :: (b.version ++ ['"'])) = '"' :: (b.version ++ ['"']) :=
    (trimSpace_skip (w := [' ']) (forall_of_all (by decide)) _).trans hquoted
  have hcolon : trimPrefix [':'] ('"' :: (b.version ++ ['"'])) = '"' :: (b.version ++ ['"']) :=
    if_neg fun h => absurd (cons_prefix_cons.mp h).1 (by decide)
  rw [yarnVersion, trimSpace_versionLine, trimPrefix_append, hvalue, hcolon, hquoted]
  refine trim_quoted b.isVersion.ne_nil (fun c hc h => (b.isVersion.plain c hc).1 ?_) (by decide)
  exact mem_append_left ['\x27', '(', ')'] h

theorem yarnStep_versionLine (out : Versions) : yarnStep ⟨b.name, out⟩ b.versionLine =
    ⟨b.name, assignNew out (b.name, b.version)⟩ := by
  have hprefix : [' ', ' '] ++ versionField <+: b.versionLine := ⟨_, rfl⟩
  rw [yarnStep, yarnVersion_versionLine, if_neg (by simp [versionLine]),
    if_neg fun h => h.1 rfl, if_pos ⟨(yarnName_plain b).1, hprefix⟩, if_pos b.isVersion.ne_nil]

theorem foldl_block : ∃ current,
    b.lines.foldl yarnStep s = ⟨current, assignNew s.out (b.name, b.version)⟩ := by
  have hfields : ∀ (ls : List Line) (s : YarnScan), (∀ l ∈ ls, IsYarnField l) →
      ls.foldl yarnStep s = s := by
    intro ls s hls
    induction ls with
    | nil => rfl
    | cons l ls ih =>
      rw [foldl_cons, yarnStep_field (hls l mem_cons_self),
        ih fun l' hl' => hls l' (mem_cons_of_mem l hl')]
  have hrest : ∀ (ls : List Line) (s : YarnScan), (∀ l ∈ ls, IsYarnField l ∨ IsGap l) →
      ∃ current, ls.foldl yarnStep s = ⟨current, s.out⟩ := by
    intro ls s hls
    induction ls generalizing s with
    | nil => exact ⟨s.currentPkg, rfl⟩
    | cons l ls ih =>
      have ih := fun s => ih s fun l' hl' => hls l' (mem_cons_of_mem l hl')
      rw [foldl_cons]
      rcases hls l mem_cons_self with hl | hl
      · rw [yarnStep_field hl]
        exact ih s
      · rw [yarnStep_gap hl]
        exact ih _
  obtain ⟨current, hrun⟩ := hrest b.rest ⟨b.name, assignNew s.out (b.name, b.version)⟩ b.isRest
  refine ⟨current, ?_⟩
  rw [lines, foldl_cons, yarnStep_header, foldl_append, hfields _ _ b.isField,
    foldl_cons, yarnStep_versionLine, hrun]

end Step

theorem foldl_blocks (blocks : List YarnBlock) (s : YarnScan) : ∃ current,
    (blocks.flatMap lines).foldl yarnStep s =
      ⟨current, (blocks.map fun b => (b.name, b.version)).foldl assignNew s.out⟩ := by
  induction blocks generalizing s with
  | nil => exact ⟨s.currentPkg, rfl⟩
  | cons b bs ih =>
    obtain ⟨current, hblock⟩ := foldl_block (s := s) b
    rw [flatMap_cons, foldl_append, hblock]
    exact ih _

theorem foldl_gaps {gaps : List Line} (h : ∀ l ∈ gaps, IsGap l) (out : Versions) :
    gaps.foldl yarnStep ⟨[], out⟩ = ⟨[], out⟩ := by
  induction gaps with
  | nil => rfl
  | cons l ls ih =>
    rw [foldl_cons, yarnStep_gap (h l mem_cons_self)]
    exact ih fun l' hl' => h l' (mem_cons_of_mem l hl')

theorem classic_gap (h : IsGap line) : trimSpace line ≠ berryKey := by
  rcases h with rfl | h
  · decide
  · obtain ⟨rest, rfl⟩ := head?_eq_some_iff.mp h
    rw [trimSpace_cons (by decide)]
    exact fun h => absurd (cons.inj h).1 (by decide)

theorem classic_block {b : YarnBlock} (h : line ∈ b.lines) : trimSpace line ≠ berryKey := by
  rcases mem_cons.mp h with rfl | h
  · intro hheader
    rw [trimSpace_header] at hheader
    have hsign : '@' ∈ b.header := by simp [header]
    rw [hheader] at hsign
    revert hsign
    decide
  · rcases mem_append.mp h with h | h
    · exact (b.isField line h).classic
    · rcases mem_cons.mp h with rfl | h
      · rw [trimSpace_versionLine]
        exact fun h => absurd (cons.inj h).1 (by decide)
      · rcases b.isRest line h with h | h
        · exact h.classic
        · exact classic_gap h

theorem parseYarnLock_text (d : YarnLock) : parseYarnLock d.text = d.firstVersions := by
  have hclassic : ∀ l ∈ d.gaps ++ d.blocks.flatMap lines,
      decide (trimSpace l ≠ berryKey) = true := by
    intro l hl
    rcases mem_append.mp hl with hl | hl
    · exact decide_eq_true (classic_gap (d.isGap l hl))
    · obtain ⟨b, -, hl⟩ := mem_flatMap.mp hl
      exact decide_eq_true (classic_block hl)
  obtain ⟨current, hblocks⟩ := foldl_blocks d.blocks ⟨[], fun _ => none⟩
  rw [parseYarnLock, YarnLock.text, scanLines_printLines d.isLine,
    takeWhile_eq_self_iff.mpr hclassic, foldl_append, foldl_gaps d.isGap, hblocks]
  funext name
  change (d.blocks.map fun b => (b.name, b.version)).foldl assignNew (fun _ => none) name = _
  rw [foldl_assignNew, Option.none_or, find?_map, Option.map_map]
  rfl

end Morf.Lockfile
