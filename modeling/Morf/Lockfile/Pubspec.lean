import Morf.Lockfile.Format

/-! `ParsePubspecLock` of `apk/lockfiles.go`. -/

namespace Morf.Lockfile

open Morf.Lib Morf.Lib.Assign Morf.Sbom
open Morf.Ios (hasSuffix trimSuffix)
open scoped List
open List

def packagesKey : Line := "packages:".toList

def versionKey : Text := ['v', 'e', 'r', 's', 'i', 'o', 'n', ':']

def isTopKey (line : Line) : Bool := line.head?.any fun c => c ∉ [' ', '\t', '#']

def atPackageIndent (line : Line) : Bool := [' ', ' '] <+: line ∧ ¬ [' ', ' ', ' '] <+: line

def pubVersion (line : Line) : Text :=
  let rest := Text.trimSpace line
  let rest := trimPrefix versionKey rest
  let rest := Text.trimSpace rest
  trim ['"', '\x27'] rest

structure PubScan where
  inPackages : Bool
  currentPkg : Text
  out : Versions

def pubStep (s : PubScan) (line : Line) : PubScan :=
  if line = packagesKey then { s with inPackages := true, currentPkg := [] }
  else if isTopKey line then { s with inPackages := false, currentPkg := [] }
  else if s.inPackages = false then s
  else if atPackageIndent line then
    let trimmed := Text.trimSpace line
    if hasSuffix trimmed ":" then { s with currentPkg := trimSuffix trimmed ":" } else s
  else if s.currentPkg ≠ [] ∧ Text.contains versionKey line then
    let rest := pubVersion line
    if rest ≠ [] then { s with out := assign s.out (s.currentPkg, rest) } else s
  else s

def parsePubspecLock (data : Text) : Versions :=
  ((scanLines data).foldl pubStep ⟨false, [], fun _ => none⟩).out

def isYamlBlank (c : Char) : Bool := c = ' ' || c = '\t'

def IsFiller (line : Line) : Prop :=
  line.all isYamlBlank = true ∨ (line.dropWhile isYamlBlank).head? = some '#'

instance : DecidablePred IsFiller := fun _ => inferInstanceAs (Decidable (_ ∨ _))

structure IsPubName (name : Text) : Prop where
  ne_nil : name ≠ []
  chars : ∀ c ∈ name, (c.isAlphanum || c = '_') = true

instance : DecidablePred IsPubName := fun name =>
  decidable_of_iff (name ≠ [] ∧ (name.all fun c => c.isAlphanum || c = '_') = true)
    ⟨fun h => ⟨h.1, List.all_eq_true.mp h.2⟩, fun h => ⟨h.ne_nil, List.all_eq_true.mpr h.chars⟩⟩

structure PubEntry where
  name : Text
  fields : List Line
  version : Text
  fillers : List Line
  isName : IsPubName name
  isVersion : IsVersion version
  isField : ∀ l ∈ fields, [' ', ' ', ' '] <+: l ∨ IsFiller l
  isFiller : ∀ l ∈ fillers, IsFiller l

namespace PubEntry

def nameLine (e : PubEntry) : Line := ' ' :: ' ' :: (e.name ++ [':'])

def versionLine (e : PubEntry) : Line :=
  ' ' :: ' ' :: ' ' :: ' ' :: (versionKey ++ ' ' :: '"' :: (e.version ++ ['"']))

def body (e : PubEntry) : List Line := e.fields ++ e.versionLine :: e.fillers

def lines (e : PubEntry) : List Line := e.nameLine :: e.body

end PubEntry

structure PubspecLock where
  before : List Line
  fillers : List Line
  entries : List PubEntry
  after : List Line
  isFiller : ∀ l ∈ fillers, IsFiller l
  names : (entries.map PubEntry.name).Nodup
  single : packagesKey ∉ before ++ after
  next : ∀ l ∈ after.head?, isTopKey l = true
  isLine : ∀ l ∈ before ++ fillers ++ entries.flatMap PubEntry.lines ++ after, IsLine l

def begins (line : Line) : Option Text :=
  if atPackageIndent line ∧ hasSuffix (Text.trimSpace line) ":" then
    some (trimSuffix (Text.trimSpace line) ":")
  else none

def carries (line : Line) : Option Text :=
  if atPackageIndent line = false ∧ Text.contains versionKey line ∧ pubVersion line ≠ [] then
    some (pubVersion line)
  else none

/-- No line that is taken to carry a version comes after one that is taken to begin a package. -/
def Unmixed (lines : List Line) : Prop :=
  lines.Pairwise fun a b => ¬ ((begins a).isSome = true ∧ (carries b).isSome = true)

namespace PubspecLock

def block (d : PubspecLock) : List Line := d.fillers ++ d.entries.flatMap PubEntry.lines

def text (d : PubspecLock) : Text := printLines (d.before ++ packagesKey :: (d.block ++ d.after))

def versions (d : PubspecLock) : List (Text × Text) := d.entries.map fun e => (e.name, e.version)

structure Undisturbed (d : PubspecLock) : Prop where
  fillers : Unmixed d.fillers
  body : ∀ e ∈ d.entries, Unmixed e.body
  last : ∀ e ∈ d.entries, ∀ version ∈ (e.fillers.filterMap carries).getLast?, version = e.version

end PubspecLock

def readings : Text → List Line → List (Text × Text)
  | _, [] => []
  | current, l :: ls =>
    (if current = [] then [] else ((carries l).map (current, ·)).toList) ++
      readings ((begins l).getD current) ls

theorem ne_packagesKey (h : isTopKey line = false) : line ≠ packagesKey := by
  rintro rfl
  revert h
  decide

theorem pubStep_inBlock (h : isTopKey line = false) : pubStep ⟨true, current, out⟩ line =
    ⟨true, (begins line).getD current, (readings current [line]).foldl assign out⟩ := by
  rw [pubStep, if_neg (ne_packagesKey h), if_neg (by simp [h]), if_neg Bool.noConfusion]
  by_cases hindent : atPackageIndent line = true
  · simp only [hindent, begins, carries, readings]
    by_cases hsuffix : hasSuffix (Text.trimSpace line) ":" = true
    · simp [hsuffix]
    · simp [hsuffix]
  · have hbegins : begins line = none := if_neg fun h => hindent h.1
    simp only [hindent, hbegins, carries, readings]
    by_cases hcurrent : current = []
    · simp [hcurrent]
    · by_cases hcontains : Text.contains versionKey line = true
      · by_cases hversion : pubVersion line = []
        · simp [hcurrent, hcontains, hversion]
        · simp [hcurrent, hcontains, hversion]
      · simp [hcurrent, hcontains]

theorem foldl_inBlock {lines : List Line} (h : ∀ l ∈ lines, isTopKey l = false) (current : Text)
    (out : Versions) : ∃ current', lines.foldl pubStep ⟨true, current, out⟩ =
      ⟨true, current', (readings current lines).foldl assign out⟩ := by
  induction lines generalizing current out with
  | nil => exact ⟨current, rfl⟩
  | cons l ls ih =>
    rw [foldl_cons, pubStep_inBlock (h l mem_cons_self)]
    obtain ⟨current', hrun⟩ := ih (fun l' hl' => h l' (mem_cons_of_mem l hl'))
      ((begins l).getD current) ((readings current [l]).foldl assign out)
    refine ⟨current', hrun.trans ?_⟩
    rw [← foldl_append]
    simp [readings]

theorem foldl_outside_packages {lines : List Line} (h : packagesKey ∉ lines) (current : Text)
    (out : Versions) :
    ∃ current', lines.foldl pubStep ⟨false, current, out⟩ = ⟨false, current', out⟩ := by
  induction lines generalizing current with
  | nil => exact ⟨current, rfl⟩
  | cons l ls ih =>
    obtain ⟨hl, hls⟩ := ne_and_not_mem_of_not_mem_cons h
    rw [foldl_cons, pubStep, if_neg (Ne.symm hl)]
    cases isTopKey l with
    | true => exact ih hls []
    | false => exact ih hls current

theorem foldl_after_packages {lines : List Line} (hsingle : packagesKey ∉ lines)
    (hnext : ∀ l ∈ lines.head?, isTopKey l = true) : (lines.foldl pubStep s).out = s.out := by
  cases lines with
  | nil => rfl
  | cons l ls =>
    obtain ⟨hl, hls⟩ := ne_and_not_mem_of_not_mem_cons hsingle
    rw [foldl_cons, pubStep, if_neg (Ne.symm hl), if_pos (hnext l rfl)]
    obtain ⟨current', hrun⟩ := foldl_outside_packages hls [] s.out
    rw [hrun]

section Lines

variable {line : Line}

def Marked (name : Text) : Prop := name.head? = some '#'

theorem isTopKey_of_isFiller (h : IsFiller line) : isTopKey line = false := by
  cases line with
  | nil => rfl
  | cons c t =>
    have hc : c = ' ' ∨ c = '\t' ∨ c = '#' := by
      cases hblank : isYamlBlank c with
      | true => simpa [isYamlBlank, or_assoc] using Or.inl (b := c = '#') hblank
      | false => exact .inr (.inr (by simpa [IsFiller, hblank] using h))
    rcases hc with rfl | rfl | rfl <;> rfl

theorem trimSpace_filler (h : IsFiller line) :
    Text.trimSpace line = [] ∨ ∃ t, Text.trimSpace line = '#' :: t := by
  have hspace : ∀ c, isYamlBlank c = true → Text.isSpace c = true := by
    intro c hc
    rcases Bool.or_eq_true_iff.mp hc with hc | hc <;> rw [of_decide_eq_true hc] <;> decide
  rcases h with h | h
  · have hskip := Text.trimSpace_skip (fun c hc => hspace c (all_eq_true.mp h c hc)) []
    rw [append_nil] at hskip
    exact .inl hskip
  · obtain ⟨t, ht⟩ := head?_eq_some_iff.mp h
    have hskip := Text.trimSpace_skip
      (fun c hc => hspace c (mem_takeWhile_imp (l := line) hc)) ('#' :: t)
    rw [← ht, takeWhile_append_dropWhile, ht, Text.trimSpace_cons (by decide)] at hskip
    exact .inr ⟨_, hskip⟩

theorem marked_of_begins (h : IsFiller line) (hname : begins line = some name) : Marked name := by
  obtain ⟨⟨-, hsuffix⟩, hname⟩ := Option.ite_none_right_eq_some.mp hname
  obtain ⟨t, ht⟩ := isSuffixOf_iff_suffix.mp hsuffix
  rw [← ht, trimSuffix_append] at hname
  obtain rfl := Option.some.inj hname
  rcases trimSpace_filler h with hline | ⟨u, hline⟩
  · rw [hline] at ht
    exact absurd (append_eq_nil_iff.mp ht).2 (by decide)
  · rw [hline] at ht
    cases t with
    | nil => exact absurd (cons.inj ht).1 (by decide)
    | cons c t => exact congrArg some (cons.inj ht).1

theorem begins_eq_none (h : [' ', ' ', ' '] <+: line) : begins line = none :=
  if_neg fun hline => (of_decide_eq_true hline.1).2 h

theorem carries_of_begins (h : (begins line).isSome = true) : carries line = none := by
  refine if_neg fun hline => ?_
  obtain ⟨name, hname⟩ := Option.isSome_iff_exists.mp h
  have hindent := (Option.ite_none_right_eq_some.mp hname).1.1
  rw [hline.1] at hindent
  cases hindent

variable {e : PubEntry}

theorem isSpace_of_mem_name (hc : c ∈ e.name) : Text.isSpace c = false := by
  rcases Bool.or_eq_true_iff.mp (e.isName.chars c hc) with h | h
  · exact isSpace_of_isAlphanum h
  · rw [of_decide_eq_true h]
    decide

theorem begins_nameLine (e : PubEntry) : begins e.nameLine = some e.name := by
  have hindent : atPackageIndent e.nameLine = true := by
    refine decide_eq_true ⟨⟨_, rfl⟩, fun h => ?_⟩
    obtain ⟨c, rest, hname⟩ := exists_cons_of_ne_nil e.isName.ne_nil
    have hline : e.nameLine = [' ', ' '] ++ c :: (rest ++ [':']) := by
      rw [PubEntry.nameLine, hname]
      rfl
    have hc : ' ' = c := (cons_prefix_cons.mp
      ((prefix_append_right_inj [' ', ' ']).mp (hline ▸ h : [' ', ' '] ++ [' '] <+: _))).1
    have hspace := isSpace_of_mem_name (e := e) (hname ▸ mem_cons_self : c ∈ e.name)
    rw [← hc] at hspace
    revert hspace
    decide
  have htrim : Text.trimSpace e.nameLine = e.name ++ ":".toList := by
    have hskip := Text.trimSpace_skip (w := [' ', ' ']) (Text.forall_of_all (by decide)) (e.name ++ [':'])
    rw [Text.trimSpace_append e.isName.ne_nil fun c hc => isSpace_of_mem_name hc] at hskip
    exact hskip
  rw [begins, htrim, trimSuffix_append, if_pos ⟨hindent, isSuffixOf_iff_suffix.mpr ⟨_, rfl⟩⟩]

theorem pubVersion_versionLine (e : PubEntry) : pubVersion e.versionLine = e.version := by
  have hline : Text.trimSpace e.versionLine = versionKey ++ ' ' :: '"' :: (e.version ++ ['"']) :=
    (Text.trimSpace_skip (w := [' ', ' ', ' ', ' ']) (Text.forall_of_all (by decide)) _).trans
      (trimSpace_framed (x := 'v') (by decide) (by decide)
        (['e', 'r', 's', 'i', 'o', 'n', ':', ' ', '"'] ++ e.version))
  have hvalue : Text.trimSpace (' ' :: '"' :: (e.version ++ ['"'])) = '"' :: (e.version ++ ['"']) :=
    (Text.trimSpace_skip (w := [' ']) (Text.forall_of_all (by decide)) _).trans
      (trimSpace_framed (by decide) (by decide) e.version)
  rw [pubVersion, hline, trimPrefix_append, hvalue]
  refine trim_quoted e.isVersion.ne_nil (fun c hc h => (e.isVersion.plain c hc).1 ?_) (by decide)
  exact mem_append_left ['(', ')'] h

theorem carries_versionLine (e : PubEntry) : carries e.versionLine = some e.version := by
  have hindent : atPackageIndent e.versionLine = false :=
    decide_eq_false fun h => h.2 ⟨_, rfl⟩
  have hcontains : Text.contains versionKey e.versionLine = true :=
    Search.contains_iff.mpr ⟨[' ', ' ', ' ', ' '], _, rfl⟩
  rw [carries, pubVersion_versionLine, if_pos ⟨hindent, hcontains, e.isVersion.ne_nil⟩]

theorem marked_of_mem_body (hl : l ∈ e.body) (h : begins l = some name) : Marked name := by
  rcases mem_append.mp hl with hl | hl
  · rcases e.isField l hl with hfield | hfiller
    · rw [begins_eq_none hfield] at h
      cases h
    · exact marked_of_begins hfiller h
  · rcases mem_cons.mp hl with rfl | hl
    · have hspaces : [' ', ' ', ' '] <+: e.versionLine := ⟨_, rfl⟩
      rw [begins_eq_none hspaces] at h
      cases h
    · exact marked_of_begins (e.isFiller l hl) h

theorem isTopKey_of_mem_lines (hl : l ∈ e.lines) : isTopKey l = false := by
  have hspace : ∀ t : Line, isTopKey (' ' :: t) = false := fun _ => rfl
  rcases mem_cons.mp hl with rfl | hl
  · exact hspace _
  · rcases mem_append.mp hl with hl | hl
    · rcases e.isField l hl with ⟨t, rfl⟩ | hfiller
      · exact hspace _
      · exact isTopKey_of_isFiller hfiller
    · rcases mem_cons.mp hl with rfl | hl
      · exact hspace _
      · exact isTopKey_of_isFiller (e.isFiller l hl)

end Lines

section Readings

variable {current : Text}

theorem readings_keys (h : ∀ l ∈ lines, ∀ name, begins l = some name → Marked name) :
    ∀ p ∈ readings current lines, p.1 ≠ [] ∧ (p.1 = current ∨ Marked p.1) := by
  induction lines generalizing current with
  | nil => exact fun p hp => absurd hp not_mem_nil
  | cons l ls ih =>
    intro p hp
    rcases mem_append.mp hp with hp | hp
    · by_cases hcurrent : current = []
      · simp [hcurrent] at hp
      · rw [if_neg hcurrent] at hp
        obtain ⟨v, -, rfl⟩ := Option.map_eq_some_iff.mp (Option.mem_toList.mp hp)
        exact ⟨hcurrent, .inl rfl⟩
    · obtain ⟨hne, hkey⟩ := ih (fun l' hl' => h l' (mem_cons_of_mem l hl')) p hp
      refine ⟨hne, ?_⟩
      cases hbegins : begins l with
      | none => rwa [hbegins] at hkey
      | some name =>
        rw [hbegins] at hkey
        rcases hkey with hkey | hkey
        · exact .inr (hkey ▸ h l mem_cons_self name hbegins)
        · exact .inr hkey

theorem readings_eq_nil (h : ∀ l ∈ lines, carries l = none) (current : Text) :
    readings current lines = [] := by
  induction lines generalizing current with
  | nil => rfl
  | cons l ls ih =>
    rw [readings, h l mem_cons_self, ih fun l' hl' => h l' (mem_cons_of_mem l hl')]
    simp

theorem unmixed_cons : Unmixed (l :: lines) ↔
    ((begins l).isSome = true → ∀ l' ∈ lines, carries l' = none) ∧ Unmixed lines := by
  refine pairwise_cons.trans (and_congr_left' ?_)
  constructor
  · intro h hl l' hl'
    exact Option.not_isSome_iff_eq_none.mp fun hcarries => h l' hl' ⟨hl, hcarries⟩
  · rintro h l' hl' ⟨hl, hcarries⟩
    simp [h hl l' hl'] at hcarries

theorem readings_unmarked_iff (h : ∀ l ∈ lines, ∀ name, begins l = some name → Marked name)
    (current : Text) : (∀ p ∈ readings current lines, ¬ Marked p.1) ↔
      Unmixed lines ∧ (Marked current → ∀ l ∈ lines, carries l = none) := by
  induction lines generalizing current with
  | nil => simp [readings, Unmixed]
  | cons l ls ih =>
    have ih := ih fun l' hl' => h l' (mem_cons_of_mem l hl')
    rw [unmixed_cons, forall_mem_cons]
    cases hbegins : begins l with
    | some name =>
      -- from here on everything is read for a comment
      have hsome : (begins l).isSome = true := by simp [hbegins]
      have hcarries := carries_of_begins hsome
      have hname := h l mem_cons_self name hbegins
      have hreadings : readings current (l :: ls) = readings name ls := by
        simp [readings, hcarries, hbegins]
      rw [hreadings, ih name]
      simp only [hname, hcarries, Option.isSome_some, true_and, forall_const]
      tauto
    | none =>
      cases hcarries : carries l with
      | none =>
        have hreadings : readings current (l :: ls) = readings current ls := by
          simp [readings, hcarries, hbegins]
        rw [hreadings, ih current]
        simp
      | some version =>
        by_cases hcurrent : current = []
        · have hreadings : readings current (l :: ls) = readings current ls := by
            simp [readings, hbegins, hcurrent]
          rw [hreadings, ih current]
          simp [Marked, hcurrent]
        · have hreadings : readings current (l :: ls) = (current, version) :: readings current ls := by
            simp [readings, hcarries, hbegins, hcurrent]
          rw [hreadings, forall_mem_cons, ih current]
          simp
          tauto

theorem readings_unmixed (h : Unmixed lines) (hcurrent : current ≠ []) :
    readings current lines = (lines.filterMap carries).map (current, ·) := by
  induction lines with
  | nil => rfl
  | cons l ls ih =>
    obtain ⟨hl, hls⟩ := unmixed_cons.mp h
    rw [readings, if_neg hcurrent]
    cases hbegins : begins l with
    | none =>
      rw [Option.getD_none, ih hls]
      cases hcarries : carries l with
      | none => simp [hcarries]
      | some version => simp [hcarries]
    | some name =>
      have hsome : (begins l).isSome = true := by simp [hbegins]
      have hnone : ∀ l' ∈ l :: ls, carries l' = none :=
        forall_mem_cons.mpr ⟨carries_of_begins hsome, hl hsome⟩
      rw [readings_eq_nil fun l' hl' => hnone l' (mem_cons_of_mem l hl'),
        filterMap_eq_nil_iff.mpr hnone, hnone l mem_cons_self]
      rfl

theorem readings_append (h : ∀ l ∈ lines'.head?, (begins l).isSome = true) :
    readings current (lines ++ lines') = readings current lines ++ readings [] lines' := by
  induction lines generalizing current with
  | nil =>
    cases lines' with
    | nil => rfl
    | cons l ls =>
      obtain ⟨name, hname⟩ := Option.isSome_iff_exists.mp (h l rfl)
      simp [readings, carries_of_begins (h l rfl), hname]
  | cons l ls ih => rw [cons_append, readings, readings, ih, append_assoc]

end Readings

theorem readings_lines (e : PubEntry) : readings [] e.lines = readings e.name e.body := by
  rw [PubEntry.lines, readings, begins_nameLine]
  rfl

theorem begins_head_entries (entries : List PubEntry) :
    ∀ l ∈ (entries.flatMap PubEntry.lines).head?, (begins l).isSome = true := by
  intro l hl
  cases entries with
  | nil => cases hl
  | cons e es =>
    obtain rfl : e.nameLine = l := Option.some.inj hl
    rw [begins_nameLine]
    rfl

theorem readings_entries (entries : List PubEntry) :
    readings [] (entries.flatMap PubEntry.lines) =
      entries.flatMap fun e => readings e.name e.body := by
  induction entries with
  | nil => rfl
  | cons e es ih =>
    rw [flatMap_cons, flatMap_cons, readings_append (begins_head_entries es),
      readings_lines, ih]

theorem parsePubspecLock_text (d : PubspecLock) : parsePubspecLock d.text =
    assigned (readings [] d.fillers ++ d.entries.flatMap fun e => readings e.name e.body) := by
  have hlines : ∀ l ∈ d.before ++ packagesKey :: (d.block ++ d.after), IsLine l := by
    intro l hl
    by_cases hkey : l = packagesKey
    · subst hkey
      exact ⟨by decide, by decide, by decide⟩
    · refine d.isLine l ?_
      simp only [PubspecLock.block, mem_append, mem_cons] at hl ⊢
      tauto
  have hblock : ∀ l ∈ d.block, isTopKey l = false := by
    intro l hl
    rcases mem_append.mp hl with hl | hl
    · exact isTopKey_of_isFiller (d.isFiller l hl)
    · obtain ⟨e, -, hl⟩ := mem_flatMap.mp hl
      exact isTopKey_of_mem_lines hl
  have hbefore : packagesKey ∉ d.before := fun h => d.single (mem_append_left _ h)
  have hafter : packagesKey ∉ d.after := fun h => d.single (mem_append_right _ h)
  obtain ⟨current, hoff⟩ := foldl_outside_packages hbefore [] fun _ => none
  obtain ⟨current', hon⟩ := foldl_inBlock hblock [] fun _ => none
  have hopen : pubStep ⟨false, current, fun _ => none⟩ packagesKey = ⟨true, [], fun _ => none⟩ :=
    if_pos rfl
  rw [parsePubspecLock, PubspecLock.text, scanLines_printLines hlines, foldl_append, hoff,
    foldl_cons, hopen, foldl_append, hon, foldl_after_packages hafter d.next,
    PubspecLock.block, readings_append (begins_head_entries d.entries), readings_entries]
  rfl

theorem assigned_readings {e : PubEntry} (h : Unmixed e.body) :
    assigned (readings e.name e.body) e.name =
      ((e.fillers.filterMap carries).getLast?).or (some e.version) := by
  have hall : ∀ versions : List Text,
      ((versions.map (e.name, ·)).filter fun p => p.1 = e.name) = versions.map (e.name, ·) :=
    fun versions => filter_eq_self.mpr (forall_mem_map.mpr fun _ _ => decide_eq_true rfl)
  rw [readings_unmixed h e.isName.ne_nil, assigned_eq, hall, getLast?_map, Option.map_map]
  rw [PubEntry.body, filterMap_append, filterMap_cons_some (carries_versionLine e),
    getLast?_append, getLast?_cons]
  cases (e.fillers.filterMap carries).getLast? with
  | none => rfl
  | some version => rfl

theorem not_marked_name (e : PubEntry) : ¬ Marked e.name := by
  intro h
  have hchar := e.isName.chars '#' (mem_of_mem_head? h)
  revert hchar
  decide

theorem readings_fillers_eq_nil_iff (h : ∀ l ∈ fillers, IsFiller l) :
    readings [] fillers = [] ↔ Unmixed fillers := by
  have hbegins : ∀ l ∈ fillers, ∀ name, begins l = some name → Marked name :=
    fun l hl name => marked_of_begins (h l hl)
  have hiff := readings_unmarked_iff hbegins []
  constructor
  · intro hnil
    rw [hnil] at hiff
    exact (hiff.mp fun p hp => absurd hp not_mem_nil).1
  · intro hunmixed
    refine eq_nil_iff_forall_not_mem.mpr fun p hp => ?_
    have hkey := readings_keys hbegins p hp
    exact hiff.mpr ⟨hunmixed, fun h => absurd h (by simp [Marked])⟩ p hp (hkey.2.resolve_left hkey.1)

theorem entry_kept_iff (e : PubEntry) :
    (∀ p ∈ readings e.name e.body, ¬ Marked p.1) ∧
        assigned (readings e.name e.body) e.name = some e.version ↔
      Unmixed e.body ∧
        ∀ version ∈ (e.fillers.filterMap carries).getLast?, version = e.version := by
  have hiff := readings_unmarked_iff (fun l (hl : l ∈ e.body) name => marked_of_mem_body hl) e.name
  have hunmarked : (∀ p ∈ readings e.name e.body, ¬ Marked p.1) ↔ Unmixed e.body :=
    hiff.trans (and_iff_left fun h => absurd h (not_marked_name e))
  rw [hunmarked]
  refine and_congr_right fun h => ?_
  rw [assigned_readings h]
  cases (e.fillers.filterMap carries).getLast? with
  | none => simp
  | some version => simp

theorem pubspecLock_yields_iff (d : PubspecLock) :
    Yields (parsePubspecLock d.text) d.versions ↔ d.Undisturbed := by
  have hlead : ∀ p ∈ readings [] d.fillers, Marked p.1 := by
    intro p hp
    have hkey := readings_keys (fun l hl name => marked_of_begins (d.isFiller l hl)) p hp
    exact hkey.2.resolve_left hkey.1
  have hkeys : ∀ e ∈ d.entries, ∀ p ∈ readings e.name e.body, p.1 = e.name ∨ Marked p.1 :=
    fun e _ p hp => (readings_keys (fun l hl name => marked_of_mem_body hl) p hp).2
  have hversions : (d.versions.map Prod.fst).Nodup := by
    rw [PubspecLock.versions, map_map]
    exact d.names
  rw [yields_iff hversions, parsePubspecLock_text, PubspecLock.versions,
    assigned_parts_iff hlead d.names (fun e _ => not_marked_name e) hkeys,
    readings_fillers_eq_nil_iff d.isFiller]
  constructor
  · rintro ⟨hfillers, hentries⟩
    have hkept := fun e he => (entry_kept_iff e).mp (hentries e he)
    exact ⟨hfillers, fun e he => (hkept e he).1, fun e he => (hkept e he).2⟩
  · rintro ⟨hfillers, hbody, hlast⟩
    exact ⟨hfillers, fun e he => (entry_kept_iff e).mpr ⟨hbody e he, hlast e he⟩⟩

end Morf.Lockfile
