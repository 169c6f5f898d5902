import Mathlib.Order.MinMax
import Morf.Detect.Findings
import Morf.Lib.Deferred
import Morf.Lib.Machine

/-! The pattern directory under the CRUD operations of `utils/pattern.go`, with the caches of
`GetPatternCache`: when a scan uses the rules of the moment. -/

namespace Morf.Detect

open Morf.Lib
open List Function PatternSet

structure Pattern where
  name : String
  regex : String
  confidence : String
  enabled : Bool
  deriving DecidableEq

inductive RuleError
  | filename (filename : Text)
  | extension (filename : Text)
  | nameRequired
  | regexRequired
  | regex
  | confidence
  | pattern (name : String) (cause : RuleError)
  | fileExists (filename : Text)
  | fileMissing (filename : Text)
  | yaml (filename : Text)
  | patternExists (name : String)
  | patternMissing (name : String)
  deriving DecidableEq

/-- The name in the pattern directory that a caller's file name stands for.  The further
check that the path stays in the directory cannot fail for a base name. -/
def resolvePatternPath (filename : Text) : Except RuleError Text :=
  let base := Path.base filename
  let lower := base.map Text.toLower
  if base = ['.'] ∨ base = ['.', '.'] ∨ base = ['/'] ∨ Text.trimSpace base = [] then
    .error (.filename filename)
  else if isYAML lower then .ok base
  else .error (.extension filename)

variable (E : Engine)

def validatePattern (p : Pattern) : Except RuleError Unit :=
  if p.name = "" then .error .nameRequired
  else if p.regex = "" then .error .regexRequired
  else if (E.compile p.regex).isNone then .error .regex
  else if p.confidence ≠ "high" ∧ p.confidence ≠ "low" ∧ p.confidence ≠ "medium" then
    .error .confidence
  else .ok ()

def validateAll (ps : List Pattern) : Except RuleError Unit :=
  ps.forM fun p => (validatePattern E p).mapError (.pattern p.name)

def PatternEntry.pattern (p : PatternEntry) : Pattern :=
  { name := p.name, regex := p.regex, confidence := p.confidence, enabled := p.enabled.getD true }

def Pattern.entry (p : Pattern) : PatternEntry :=
  { name := p.name, regex := p.regex, confidence := p.confidence, enabled := some p.enabled }

def loadPatternsFromFile (files : List RuleFile) (name : Text) : Except RuleError (List Pattern) :=
  match files.find? (·.name = name) with
  | none => .error (.fileMissing name)
  | some f =>
    match f.doc with
    | none => .error (.yaml name)
    | some d => .ok (d.patterns.map PatternEntry.pattern)

def putFile (f : RuleFile) : List RuleFile → List RuleFile
  | [] => [f]
  | g :: gs =>
    if f.name = g.name then f :: gs
    else if f.name < g.name then f :: g :: gs
    else g :: putFile f gs

def savePatternsToFile (files : List RuleFile) (now : Nat) (filename : Text) (ps : List Pattern) :
    Except RuleError (List RuleFile) := do
  let name ← resolvePatternPath filename
  return putFile ⟨name, some { patterns := ps.map Pattern.entry }, now⟩ files

inductive RuleOp
  | create (filename : Text) (ps : List Pattern)
  | update (filename : Text) (ps : List Pattern)
  | delete (filename : Text)
  | addPattern (filename : Text) (p : Pattern)
  | updatePattern (filename : Text) (patternName : String) (p : Pattern)
  | deletePattern (filename : Text) (patternName : String)
  | enablePattern (filename : Text) (patternName : String) (enabled : Bool)

def replaceFirst (name : String) (f : Pattern → Pattern) : List Pattern → Option (List Pattern)
  | [] => none
  | p :: ps =>
    if p.name = name then some (f p :: ps) else (replaceFirst name f ps).map (p :: ·)

def replaceIn (files : List RuleFile) (now : Nat) (filename : Text) (name : String)
    (f : Pattern → Pattern) : Except RuleError (List RuleFile) := do
  let full ← resolvePatternPath filename
  let ps ← loadPatternsFromFile files full
  match replaceFirst name f ps with
  | none => .error (.patternMissing name)
  | some ps => savePatternsToFile files now filename ps

def RuleOp.run (files : List RuleFile) (now : Nat) : RuleOp → Except RuleError (List RuleFile)
  | .create filename ps => do
    let filename := if isYAML filename then filename else filename ++ ".yaml".toList
    let name ← resolvePatternPath filename
    reject (files.any (·.name = name)) (.fileExists filename)
    validateAll E ps
    savePatternsToFile files now filename ps
  | .update filename ps => do
    validateAll E ps
    savePatternsToFile files now filename ps
  | .delete filename => do
    let name ← resolvePatternPath filename
    reject (files.all (·.name ≠ name)) (.fileMissing name)
    return files.filter (·.name ≠ name)
  | .addPattern filename p => do
    validatePattern E p
    let name ← resolvePatternPath filename
    let ps ← loadPatternsFromFile files name
    reject (ps.any (·.name = p.name)) (.patternExists p.name)
    savePatternsToFile files now filename (ps ++ [p])
  | .updatePattern filename name p => do
    validatePattern E p
    replaceIn files now filename name fun _ => p
  | .deletePattern filename patternName => do
    let name ← resolvePatternPath filename
    let ps ← loadPatternsFromFile files name
    let kept := ps.filter (·.name ≠ patternName)
    reject (kept.length = ps.length) (.patternMissing patternName)
    savePatternsToFile files now filename kept
  | .enablePattern filename name enabled =>
    replaceIn files now filename name fun p => { p with enabled }

structure Rules where
  files : List RuleFile
  now : Nat
  caches : Caches := fun _ => none

inductive RuleLabel
  | tick (d : Nat)
  | change (op : RuleOp)
  | scan (platform : Platform)

namespace Rules

def step (s : Rules) : RuleLabel → Rules
  | .tick d => { s with now := s.now + d }
  | .change op =>
    match op.run E s.files s.now with
    | .error _ => s
    | .ok files => { s with files }
  | .scan platform => { s with caches := (getPatternCache E s.files s.caches platform).2 }

def machine (files : List RuleFile) (now : Nat) : Machine Rules RuleLabel where
  init := { files, now }
  step s l := some (step E s l)

def platforms : List Platform := [.ios, .android, .any]

def removable (s : Rules) (name : Text) (platform : Platform) (c : PatternSet) : Bool :=
  c.builtFrom < maxModTime (s.files.filter (·.name ≠ name)) ||
    (s.files.filter (·.name = name)).all fun f =>
      f.modTime ≤ c.builtFrom && filePatterns E platform f = []

def noticed (s : Rules) : RuleLabel → Bool
  | .tick _ | .scan _ => true
  | .change (.delete filename) => platforms.all fun p =>
    (s.caches p).all (removable E s (Path.base filename) p)
  | .change op => !(op.run E s.files s.now).isOk ||
    platforms.all fun p => (s.caches p).all fun c => c.builtFrom < s.now

end Rules

theorem lt_foldl_max {files : List RuleFile} :
    n < files.foldl (fun m f => max m f.modTime) m ↔ n < m ∨ ∃ f ∈ files, n < f.modTime := by
  induction files generalizing m with
  | nil => simp
  | cons f files ih =>
    rw [foldl_cons, ih, lt_max_iff, exists_mem_cons_iff, or_assoc]

theorem lt_maxModTime : n < maxModTime files ↔ ∃ f ∈ files, n < f.modTime := by
  rw [maxModTime, lt_foldl_max, or_iff_right (Nat.not_lt_zero n)]

theorem mem_putFile (f : RuleFile) (files : List RuleFile) : f ∈ putFile f files := by
  induction files with
  | nil => exact mem_cons_self
  | cons g gs ih =>
    rw [putFile]
    split
    · exact mem_cons_self
    · split
      · exact mem_cons_self
      · exact mem_cons_of_mem _ ih

theorem resolvePatternPath_ok (h : resolvePatternPath filename = .ok name) :
    name = Path.base filename := by
  simp only [resolvePatternPath] at h
  split at h
  · cases h
  · split at h
    · cases h
      rfl
    · cases h

variable {E : Engine} {files : List RuleFile} {now : Nat}

theorem savePatternsToFile_doc (h : savePatternsToFile files now filename ps = .ok files') :
    files' = putFile ⟨Path.base filename, some { patterns := ps.map Pattern.entry }, now⟩ files := by
  obtain ⟨name, hname, h⟩ := except_bind_ok.mp h
  cases h
  rw [resolvePatternPath_ok hname]

theorem savePatternsToFile_ok (h : savePatternsToFile files now filename ps = .ok files') :
    ∃ name doc, files' = putFile ⟨name, doc, now⟩ files := ⟨_, _, savePatternsToFile_doc h⟩

theorem replaceIn_ok (h : replaceIn files now filename name f = .ok files') :
    ∃ name doc, files' = putFile ⟨name, doc, now⟩ files := by
  obtain ⟨_, -, h⟩ := except_bind_ok.mp h
  obtain ⟨ps, -, h⟩ := except_bind_ok.mp h
  split at h
  · cases h
  · exact savePatternsToFile_ok h

theorem RuleOp.run_ok {op : RuleOp} (h : op.run E files now = .ok files') :
    (∀ filename, op ≠ .delete filename) ∧ (∃ name doc, files' = putFile ⟨name, doc, now⟩ files) ∨
      ∃ filename, op = .delete filename ∧
        files' = files.filter (·.name ≠ Path.base filename) := by
  cases op with
  | delete filename =>
    obtain ⟨name, hname, h⟩ := except_bind_ok.mp h
    obtain ⟨-, -, h⟩ := except_bind_ok.mp h
    cases h
    exact .inr ⟨filename, rfl, by rw [resolvePatternPath_ok hname]⟩
  | create filename ps =>
    refine .inl ⟨nofun, ?_⟩
    obtain ⟨name, -, h⟩ := except_bind_ok.mp h
    obtain ⟨-, -, h⟩ := except_bind_ok.mp h
    obtain ⟨-, -, h⟩ := except_bind_ok.mp h
    exact savePatternsToFile_ok h
  | update filename ps =>
    refine .inl ⟨nofun, ?_⟩
    obtain ⟨-, -, h⟩ := except_bind_ok.mp h
    exact savePatternsToFile_ok h
  | addPattern filename p =>
    refine .inl ⟨nofun, ?_⟩
    obtain ⟨-, -, h⟩ := except_bind_ok.mp h
    obtain ⟨name, -, h⟩ := except_bind_ok.mp h
    obtain ⟨ps, -, h⟩ := except_bind_ok.mp h
    obtain ⟨-, -, h⟩ := except_bind_ok.mp h
    exact savePatternsToFile_ok h
  | updatePattern filename name p =>
    refine .inl ⟨nofun, ?_⟩
    obtain ⟨-, -, h⟩ := except_bind_ok.mp h
    exact replaceIn_ok h
  | deletePattern filename name =>
    refine .inl ⟨nofun, ?_⟩
    obtain ⟨name, -, h⟩ := except_bind_ok.mp h
    obtain ⟨ps, -, h⟩ := except_bind_ok.mp h
    obtain ⟨-, -, h⟩ := except_bind_ok.mp h
    exact savePatternsToFile_ok h
  | enablePattern filename name enabled => exact .inl ⟨nofun, replaceIn_ok h⟩

def PatternSet.rules (c : PatternSet) : PatternCache × String := (c.cache, c.patternsTxt)

theorem buildPatternCache_builtFrom (h : buildPatternCache E files m p = .ok c) :
    c.builtFrom = m := by
  unfold buildPatternCache at h
  split at h
  · cases h
  · cases h
    rfl

theorem buildPatternCache_congr
    (h : files.flatMap (filePatterns E p) = files'.flatMap (filePatterns E p)) :
    buildPatternCache E files m p = buildPatternCache E files' m p := by
  rw [buildPatternCache, buildPatternCache, h]

theorem buildPatternCache_rules (m m' : Nat) (p : Platform) :
    (buildPatternCache E files m p).map rules =
      (buildPatternCache E files m' p).map rules := by
  unfold buildPatternCache
  split <;> rfl

theorem getPatternCache_cases (files : List RuleFile) (caches : Caches) (p : Platform) :
    (∃ c, caches p = some c ∧ maxModTime files ≤ c.builtFrom ∧
      getPatternCache E files caches p = (.ok c, caches)) ∨
    (∃ e, buildPatternCache E files (maxModTime files) p = .error e ∧
      getPatternCache E files caches p = (.error e, caches)) ∨
    ∃ c, buildPatternCache E files (maxModTime files) p = .ok c ∧
      getPatternCache E files caches p = (.ok c, Function.update caches p (some c)) := by
  by_cases hc : ∃ c, caches p = some c ∧ maxModTime files ≤ c.builtFrom
  · obtain ⟨c, hp, hle⟩ := hc
    exact .inl ⟨c, hp, hle, by simp only [getPatternCache, hp, hle, if_true]⟩
  · have hstale : ∀ c, caches p = some c → ¬ maxModTime files ≤ c.builtFrom :=
      fun c hp hle => hc ⟨c, hp, hle⟩
    rcases hb : buildPatternCache E files (maxModTime files) p with e | c
    · refine .inr (.inl ⟨e, rfl, ?_⟩)
      cases hp : caches p with
      | none => simp only [getPatternCache, hp, hb]
      | some cached => simp only [getPatternCache, hp, hb, if_neg (hstale cached hp)]
    · refine .inr (.inr ⟨c, rfl, ?_⟩)
      cases hp : caches p with
      | none => simp only [getPatternCache, hp, hb]
      | some cached => simp only [getPatternCache, hp, hb, if_neg (hstale cached hp)]

theorem getPatternCache_caches (h : (getPatternCache E files caches p).2 q = some c) :
    caches q = some c ∨ buildPatternCache E files (maxModTime files) q = .ok c := by
  rcases getPatternCache_cases (E := E) files caches p with
    ⟨_, _, _, hg⟩ | ⟨_, _, hg⟩ | ⟨c', hb, hg⟩
  · exact .inl (by rwa [hg] at h)
  · exact .inl (by rwa [hg] at h)
  · simp only [hg] at h
    by_cases hqp : q = p
    · subst hqp
      rw [update_self] at h
      exact .inr (hb.trans (by rw [Option.some.inj h]))
    · rw [update_of_ne hqp] at h
      exact .inl h

theorem buildPatternCache_ne_nil (h : buildPatternCache E files m p = .ok c) :
    c.cache.patterns ≠ [] := by
  unfold buildPatternCache at h
  split at h
  case h_1 => cases h
  case h_2 hne =>
    cases h
    exact hne

namespace Rules

def Fresh (E : Engine) (s : Rules) : Prop :=
  ∀ p c, s.caches p = some c → c.builtFrom < maxModTime s.files ∨
    buildPatternCache E s.files c.builtFrom p = .ok c

variable {s : Rules}

theorem Fresh.init (files : List RuleFile) (now : Nat) : Fresh E (machine E files now).init :=
  fun _ _ hp => nomatch hp

def Loaded (s : Rules) : Prop := ∀ p c, s.caches p = some c → c.cache.patterns ≠ []

theorem Loaded.get (hl : Loaded s) (h : (getPatternCache E s.files s.caches p).1 = .ok c) :
    c.cache.patterns ≠ [] := by
  rcases getPatternCache_cases (E := E) s.files s.caches p with
    ⟨c', hp, -, hg⟩ | ⟨e, -, hg⟩ | ⟨c', hb, hg⟩
  · rw [hg] at h
    cases h
    exact hl p _ hp
  · rw [hg] at h
    cases h
  · rw [hg] at h
    cases h
    exact buildPatternCache_ne_nil hb

theorem Loaded.step (hl : Loaded s) (l : RuleLabel) : Loaded (s.step E l) := by
  cases l with
  | tick d => exact hl
  | change op =>
    simp only [Rules.step]
    split <;> exact hl
  | scan p =>
    intro q c hq
    rcases getPatternCache_caches hq with hq | hb
    · exact hl q c hq
    · exact buildPatternCache_ne_nil hb

theorem loaded_of_reach (hr : (machine E files now).Reach ok (machine E files now).init s) :
    Loaded s := by
  refine hr.invariant (I := Loaded) (by intro _ _ h; cases h) fun t l u hl _ hs => ?_
  cases hs
  exact hl.step l

theorem Fresh.get (hf : Fresh E s) (p : Platform) :
    (getPatternCache E s.files s.caches p).1.map rules =
      (buildPatternCache E s.files (maxModTime s.files) p).map rules := by
  rcases getPatternCache_cases s.files s.caches p with ⟨c, hp, hle, hg⟩ | ⟨e, hb, hg⟩ | ⟨c, hb, hg⟩
  · rcases hf p c hp with hlt | hb
    · exact absurd hlt (Nat.not_lt.mpr hle)
    · rw [hg, buildPatternCache_rules _ c.builtFrom, hb]
  · rw [hg, hb]
  · rw [hg, hb]

theorem Fresh.scan (hf : Fresh E s) (p : Platform) : Fresh E (s.step E (.scan p)) := by
  intro q c hq
  rcases getPatternCache_caches hq with hq | hb
  · exact hf q c hq
  · exact .inr (by rw [buildPatternCache_builtFrom hb]; exact hb)

theorem mem_platforms (p : Platform) : p ∈ platforms := by cases p <;> decide

theorem fresh_write (hn : ∀ p c, s.caches p = some c → c.builtFrom < s.now) :
    Fresh E { s with files := putFile ⟨name, doc, s.now⟩ s.files } := fun p c hp =>
  .inl (lt_maxModTime.mpr ⟨_, mem_putFile _ _, hn p c hp⟩)

theorem flatMap_filter_eq (h : ∀ f ∈ files, f.name = name → filePatterns E p f = []) :
    (files.filter (·.name ≠ name)).flatMap (filePatterns E p) =
      files.flatMap (filePatterns E p) := by
  induction files with
  | nil => rfl
  | cons f files ih =>
    obtain ⟨hf, h⟩ := forall_mem_cons.mp h
    by_cases hn : f.name = name
    · rw [filter_cons_of_neg (by simpa using hn), ih h, flatMap_cons, hf hn,
        nil_append]
    · rw [filter_cons_of_pos (by simpa using hn), flatMap_cons, ih h,
        flatMap_cons]

theorem Fresh.delete (hf : Fresh E s)
    (hn : ∀ p c, s.caches p = some c → removable E s name p c = true) :
    Fresh E { s with files := s.files.filter (·.name ≠ name) } := by
  intro p c hp
  have hr := hn p c hp
  simp only [removable, Bool.or_eq_true, decide_eq_true_eq, all_eq_true, mem_filter,
    Bool.and_eq_true, and_imp] at hr
  rcases hr with hlt | hr
  · exact .inl hlt
  rcases hf p c hp with hlt | hb
  · -- what was newer than the cache is still there
    obtain ⟨f, hm, hlt⟩ := lt_maxModTime.mp hlt
    have hne : f.name ≠ name := fun he => Nat.not_lt.mpr (hr f hm he).1 hlt
    exact .inl (lt_maxModTime.mpr ⟨f, mem_filter.mpr ⟨hm, by simpa using hne⟩, hlt⟩)
  · refine .inr (Eq.trans ?_ hb)
    exact buildPatternCache_congr (flatMap_filter_eq fun f hm he => (hr f hm he).2)

theorem Fresh.step (hf : Fresh E s) (hn : noticed E s l = true) : Fresh E (s.step E l) := by
  cases l with
  | tick d => exact hf
  | scan p => exact hf.scan p
  | change op =>
    simp only [Rules.step]
    cases hr : op.run E s.files s.now with
    | error e => exact hf
    | ok files' =>
      rcases op.run_ok hr with ⟨hop, name, doc, rfl⟩ | ⟨filename, rfl, rfl⟩
      · refine fresh_write fun p c hp => ?_
        cases op with
        | delete filename => exact absurd rfl (hop filename)
        | _ =>
          simp only [noticed, hr, Except.isOk, Except.toBool, Bool.not_true, Bool.false_or,
            all_eq_true] at hn
          simpa [hp] using hn p (mem_platforms p)
      · refine hf.delete fun p c hp => ?_
        simp only [noticed, all_eq_true] at hn
        simpa [hp] using hn p (mem_platforms p)

/-- Where every change shows in the modification times, a scan uses the rules of the
moment. -/
theorem current_rules {files : List RuleFile} {now : Nat}
    (hr : (machine E files now).Reach (fun s l => noticed E s l = true)
      (machine E files now).init s) (p : Platform) :
    (getPatternCache E s.files s.caches p).1.map rules =
      (buildPatternCache E s.files (maxModTime s.files) p).map rules := by
  refine Fresh.get (hr.invariant (Fresh.init files now) fun t l u hf hn hs => ?_) p
  cases hs
  exact hf.step hn

def ruleNames (c : PatternSet) : List String := c.cache.patterns.map PatternInfo.name

def literalEngine : Engine where
  compile s := some (Regex.lit s.toList)
  unionCompiles _ := true

def ruleFile (name : String) (rules : List String) (modTime : Nat) : RuleFile :=
  ⟨name.toList, some { patterns := rules.map fun r => { name := r, regex := r, confidence := "high" } },
    modTime⟩

def demo : Machine Rules RuleLabel :=
  machine literalEngine [ruleFile "aws.yaml" ["AKIA"] 1, ruleFile "jwt.yaml" ["eyJ"] 1] 1

def edit (rules : List String) : RuleLabel :=
  .change (.update "jwt.yaml".toList (rules.map fun r =>
    { name := r, regex := r, confidence := "high", enabled := true }))

def androidRules (s : Rules) :
    Except PatternError (List String) × Except PatternError (List String) :=
  ((getPatternCache literalEngine s.files s.caches .android).1.map ruleNames,
    (buildPatternCache literalEngine s.files (maxModTime s.files) .android).map ruleNames)

theorem demo_reach (b : Rules → RuleLabel → Bool) (ls : List RuleLabel)
    (h : (demo.execIf b demo.init ls).map androidRules = some r) :
    ∃ s, demo.Reach (fun s l => b s l = true) demo.init s ∧ androidRules s = r := by
  obtain ⟨s, hs, hr⟩ := Option.map_eq_some_iff.mp h
  exact ⟨s, Machine.reach_of_execIf (fun _ _ => id) ls hs, hr⟩

/-- Files are deleted after a scan, or one is edited in the tick of the build: the next scan
uses the old rules. -/
theorem stale_rules :
    (∃ s, demo.Reach Machine.anyStep demo.init s ∧
      androidRules s = (.ok ["AKIA", "eyJ"], .ok ["AKIA"])) ∧
    (∃ s, demo.Reach Machine.anyStep demo.init s ∧
      androidRules s = (.ok ["AKIA", "eyJ"], .error (.noPatterns .android))) ∧
    ∃ s, demo.Reach Machine.anyStep demo.init s ∧
      androidRules s = (.ok ["AKIA", "eyJ"], .ok ["AKIA", "eyJhbG"]) := by
  have hrun : ∀ (ls : List RuleLabel) r,
      (demo.execIf (fun _ _ => true) demo.init ls).map androidRules = some r →
      ∃ s, demo.Reach Machine.anyStep demo.init s ∧ androidRules s = r := by
    intro ls r h
    obtain ⟨s, hs, hr⟩ := demo_reach _ ls h
    exact ⟨s, hs.mono fun _ _ _ => trivial, hr⟩
  refine ⟨hrun [.scan .android, .tick 5, .change (.delete "jwt.yaml".toList)] _ ?_,
    hrun [.scan .android, .tick 5, .change (.delete "jwt.yaml".toList),
      .change (.delete "aws.yaml".toList)] _ ?_, hrun [.scan .android, edit ["eyJhbG"]] _ ?_⟩
  all_goals decide +kernel

/-- An edit in a later tick is noticed. -/
theorem edited_rules_used :
    ∃ s, demo.Reach (fun s l => noticed literalEngine s l = true) demo.init s ∧
      androidRules s = (.ok ["AKIA", "eyJhbG"], .ok ["AKIA", "eyJhbG"]) ∧
      ∀ p, (getPatternCache literalEngine s.files s.caches p).1.map rules =
        (buildPatternCache literalEngine s.files (maxModTime s.files) p).map rules := by
  obtain ⟨s, hs, hr⟩ := demo_reach (noticed literalEngine)
    [.scan .android, .tick 5, edit ["eyJhbG"]] (r := (.ok ["AKIA", "eyJhbG"], .ok ["AKIA", "eyJhbG"]))
    (by decide +kernel)
  exact ⟨s, hs, hr, current_rules hs⟩

end Rules

/-! `scanCorpusWithOpts` of `detect/detect.go` and the runs of ripgrep that it makes
(`utils/command.go`). -/

inductive CtxError
  | deadlineExceeded
  | canceled
  deriving DecidableEq

/-- A run of a child process: its output lines, its exit status, what the context says after
it and whether that has ended the process. -/
structure Process where
  started : Bool := true
  lines : List Text := []
  readError : Bool := false
  status : Int := 0
  ctxErr : Option CtxError := none
  interrupted : Bool := false

inductive RunError
  | start
  | read
  | exit (status : Int)
  | ctx (e : CtxError)
  deriving DecidableEq

namespace Process

variable (p : Process)

def waitError : Bool := p.status ≠ 0 || (p.interrupted && p.ctxErr.isSome)

def mapRunError : RunError :=
  match p.ctxErr with
  | some e => .ctx e
  | none => .exit p.status

def runWithContextStream : Option RunError :=
  if p.started = false then some .start
  else if p.waitError then some p.mapRunError
  else if p.readError then some .read
  else none

end Process

def exitCodeOf : Option RunError → Int
  | none => 0
  | some (.exit status) => status
  | some (.ctx .deadlineExceeded) => -2
  | some _ => -1

structure ScanOptions where
  text : Bool := false
  extraExcludes : List String := []
  maxFileSizeMB : Int := 0

def excludeGlobs : List String :=
  ["-g", "!**/res/drawable*/**", "-g", "!**/res/mipmap*/**", "-g", "!**/res/color*/**",
    "-g", "!**/res/anim*/**", "-g", "!**/res/animator*/**", "-g", "!**/res/font*/**"]

def buildRgArgs (patternFilePath : String) (existing : List Text) (opts : ScanOptions) :
    List String :=
  let base := ["-n", "--file", patternFilePath]
  let base := if opts.text then
      base ++ ["-a", "-o"] ++
        (if 0 < opts.maxFileSizeMB then ["--max-filesize", toString opts.maxFileSizeMB ++ "M"] else [])
    else base
  base ++ excludeGlobs ++ opts.extraExcludes ++ existing.map String.ofList

structure Invocation where
  opts : ScanOptions
  patterns : PatternSet
  roots : List Text
  args : List String
  process : Process

structure Pass where
  rules : Rules
  isDir : Text → Bool
  patternFile : Except String String
  process : Process

inductive CorpusError
  | patternFile (e : String)
  | ripgrep (exit : Int)
  deriving DecidableEq

def rgRun (pass : Pass) (patterns : PatternSet) (existing : List Text) (opts : ScanOptions)
    (patternFilePath : String) : Invocation :=
  ⟨opts, patterns, existing, buildRgArgs patternFilePath existing opts, pass.process⟩

variable (E : Engine)

def scanCorpusWithOpts (pass : Pass) (roots : List Text) (platform : Platform)
    (opts : ScanOptions) : Body (List Invocation) CorpusError (List (SecretModel S)) :=
  match (getPatternCache E pass.rules.files pass.rules.caches platform).1 with
  | .error _ => pure []
  | .ok patterns =>
    if roots.filter pass.isDir = [] then pure []
    else do
      let path ← .lift (pass.patternFile.mapError .patternFile)
      let run := rgRun pass patterns (roots.filter pass.isDir) opts path
      .modify fun runs => runs ++ [run]
      match pass.process.runWithContextStream with
      | none => return pass.process.lines.flatMap (onLine patterns.cache)
      | some e =>
        if exitCodeOf (some e) = 1 then return []
        else throw (.ripgrep (exitCodeOf (some e)))

def scanCorpusPass (pass : Pass) (roots : List Text) (platform : Platform) :
    Body (List Invocation) CorpusError (List (SecretModel S)) :=
  scanCorpusWithOpts E pass roots platform {}

def scanCorpusText (pass : Pass) (roots : List Text) (platform : Platform)
    (extraExcludes : List String) (maxFileSizeMB : Int) :
    Body (List Invocation) CorpusError (List (SecretModel S)) :=
  scanCorpusWithOpts E pass roots platform { text := true, extraExcludes, maxFileSizeMB }

theorem Process.run_eq_none {p : Process} (h : p.runWithContextStream = none) :
    p.started = true ∧ p.status = 0 := by
  unfold runWithContextStream at h
  split at h
  · cases h
  · split at h
    · cases h
    · rename_i hs hw
      simp only [waitError, Bool.or_eq_true, decide_eq_true_eq, not_or, not_not] at hw
      exact ⟨by simpa using hs, hw.1⟩

theorem Process.run_exit {p : Process} (h : p.runWithContextStream = some (.exit n)) :
    p.started = true ∧ p.status = n ∧ n ≠ 0 := by
  unfold runWithContextStream at h
  split at h
  · cases h
  · split at h
    · rename_i hs hw
      unfold mapRunError at h
      split at h
      · cases h
      · rename_i hc
        cases h
        refine ⟨by simpa using hs, rfl, ?_⟩
        simpa [waitError, hc] using hw
    · split at h <;> cases h

theorem Process.exitCode_one {p : Process} (h : p.runWithContextStream = some e)
    (he : exitCodeOf (some e) = 1) : p.started = true ∧ p.status = 1 := by
  cases e with
  | exit n =>
    cases he
    obtain ⟨hs, hn, -⟩ := Process.run_exit h
    exact ⟨hs, hn⟩
  | ctx e => cases e <;> cases he
  | start => cases he
  | read => cases he

section Pass

variable {E : Engine}

structure Pass.Ran (E : Engine) (pass : Pass) (roots : List Text) (platform : Platform)
    (opts : ScanOptions) (run : Invocation) : Prop where
  opts_eq : run.opts = opts
  patterns_eq : (getPatternCache E pass.rules.files pass.rules.caches platform).1 =
    .ok run.patterns
  roots_eq : run.roots = roots.filter pass.isDir
  roots_ne : run.roots ≠ []
  started : run.process.started = true
  status : run.process.status = 0 ∨ run.process.status = 1

theorem scanCorpusWithOpts_ok {pass : Pass}
    (h : scanCorpusWithOpts E pass roots platform opts s = (.ok r, s')) :
    (∃ e, (getPatternCache E pass.rules.files pass.rules.caches platform).1 = .error e) ∧ s' = s ∨
    roots.filter pass.isDir = [] ∧ s' = s ∨
    ∃ run, pass.Ran E roots platform opts run ∧ s' = (s.1 ++ [run], s.2) := by
  unfold scanCorpusWithOpts at h
  cases hp : (getPatternCache E pass.rules.files pass.rules.caches platform).1 with
  | error e =>
    rw [hp] at h
    exact .inl ⟨⟨e, rfl⟩, ((Body.pure_ok.mp h).2).symm⟩
  | ok patterns =>
  rw [hp] at h
  by_cases hr : roots.filter pass.isDir = []
  · simp only [hr, if_true] at h
    exact .inr (.inl ⟨hr, ((Body.pure_ok.mp h).2).symm⟩)
  simp only [hr, if_false] at h
  obtain ⟨path, s₁, hpath, h⟩ := Body.bind_ok.mp h
  obtain ⟨-, rfl⟩ := Body.lift_ok.mp hpath
  obtain ⟨_, s₂, hrun, h⟩ := Body.bind_ok.mp h
  rw [Body.modify_ok] at hrun
  subst hrun
  have hend : (s.1 ++ [rgRun pass patterns (roots.filter pass.isDir) opts path], s.2) = s' ∧
      pass.process.started = true ∧ (pass.process.status = 0 ∨ pass.process.status = 1) := by
    cases hproc : pass.process.runWithContextStream with
    | none =>
      rw [hproc] at h
      obtain ⟨hs, h0⟩ := Process.run_eq_none hproc
      exact ⟨(Body.pure_ok.mp h).2, hs, .inl h0⟩
    | some e =>
      rw [hproc] at h
      by_cases he : exitCodeOf (some e) = 1
      · simp only [he, if_true] at h
        obtain ⟨hs, h1⟩ := Process.exitCode_one hproc he
        exact ⟨(Body.pure_ok.mp h).2, hs, .inr h1⟩
      · simp only [he, if_false] at h
        exact absurd h (by simp)
  obtain ⟨rfl, hstarted, hstatus⟩ := hend
  exact .inr (.inr ⟨_, ⟨rfl, hp, rfl, hr, hstarted, hstatus⟩, rfl⟩)

end Pass

end Morf.Detect
