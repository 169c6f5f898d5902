import Morf.Detect.Absorption
import Morf.Lib.Interleaving

/-! Two calls that edit patterns of one file at the same time.  A call reads the file in one step
and writes it in another, and nothing keeps the other call out in between. -/

namespace Morf.Detect

open Morf.Lib

structure EditCall where
  filename : Text
  edit : PatternEdit
  now : Nat

structure Editing where
  files : List RuleFile
  held : Bool → List Pattern := fun _ => []

inductive FileStep
  | read (call : Bool)
  | write (call : Bool)
  deriving DecidableEq

open EditCall

def callSteps (i : Bool) : List FileStep := [.read i, .write i]

section Steps

variable (E : Engine) (calls : Bool → EditCall)

def Editing.step (s : Editing) : FileStep → Except RuleError Editing
  | .read i => do
    (calls i).edit.check E
    let full ← resolvePatternPath (calls i).filename
    let ps ← loadPatternsFromFile s.files full
    return { s with held := Function.update s.held i ps }
  | .write i => do
    let ps ← (calls i).edit.modify (s.held i)
    let files ← savePatternsToFile s.files (calls i).now (calls i).filename ps
    return { s with files }

def Editing.run (s : Editing) (steps : List FileStep) : Except RuleError Editing :=
  steps.foldlM (Editing.step E calls) s

def EditCall.run (c : EditCall) (files : List RuleFile) : Except RuleError (List RuleFile) :=
  (c.edit.op c.filename).run E files c.now

def EditCall.after (c : EditCall) (files : List RuleFile) : List RuleFile :=
  (c.run E files).toOption.getD files

def content (files : List RuleFile) (name : Text) : Option SecretPatterns :=
  (fileNamed files name).bind RuleFile.doc

theorem run_callSteps (s : Editing) (i : Bool) :
    (s.run E calls (callSteps i)).map Editing.files = (calls i).run E s.files := by
  rw [run, PatternEdit.run_op, Editing.run, callSteps, List.foldlM_cons, Editing.step]
  cases (calls i).edit.check E with
  | error e => rfl
  | ok =>
    cases resolvePatternPath (calls i).filename with
    | error e => rfl
    | ok full =>
      cases hload : loadPatternsFromFile s.files full with
      | error e => simp [bind, Except.bind, hload, Except.map]
      | ok ps =>
        simp only [bind, Except.bind, hload, pure, Except.pure, List.foldlM, Editing.step,
          Function.update_self]
        cases (calls i).edit.modify ps with
        | error e => rfl
        | ok ps' =>
          dsimp only
          cases savePatternsToFile s.files (calls i).now (calls i).filename ps' <;> rfl

structure EditCall.Ready (c : EditCall) : Prop where
  check : c.edit.check E = .ok ()
  path : resolvePatternPath c.filename = .ok (Path.base c.filename)

def EditCall.save (c : EditCall) (files : List RuleFile) (ps : List Pattern) : List RuleFile :=
  putFile ⟨Path.base c.filename, some { patterns := ps.map Pattern.entry }, c.now⟩ files

variable {E calls} {s : Editing}

theorem step_read : s.step E calls (.read i) = .ok t ↔ (calls i).Ready E ∧
    ∃ ps, loadPatternsFromFile s.files (Path.base (calls i).filename) = .ok ps ∧
      t = { s with held := Function.update s.held i ps } := by
  constructor
  · intro h
    obtain ⟨⟨⟩, hcheck, h⟩ := except_bind_ok.mp h
    obtain ⟨full, hfull, h⟩ := except_bind_ok.mp h
    obtain ⟨ps, hps, h⟩ := except_bind_ok.mp h
    cases h
    have hbase := resolvePatternPath_ok hfull
    exact ⟨⟨hcheck, hbase ▸ hfull⟩, ps, hbase ▸ hps, rfl⟩
  · rintro ⟨⟨hcheck, hpath⟩, ps, hps, rfl⟩
    exact except_bind_ok.mpr ⟨(), hcheck, except_bind_ok.mpr ⟨_, hpath, except_bind_ok.mpr ⟨ps, hps, rfl⟩⟩⟩

theorem step_write (hready : (calls i).Ready E) : s.step E calls (.write i) = .ok t ↔
    ∃ ps, (calls i).edit.modify (s.held i) = .ok ps ∧
      t = { s with files := (calls i).save s.files ps } := by
  constructor
  · intro h
    obtain ⟨ps, hps, h⟩ := except_bind_ok.mp h
    obtain ⟨files, hfiles, h⟩ := except_bind_ok.mp h
    cases h
    exact ⟨ps, hps, by rw [savePatternsToFile_doc hfiles, save]⟩
  · rintro ⟨ps, hps, rfl⟩
    refine except_bind_ok.mpr ⟨ps, hps, except_bind_ok.mpr ⟨_, ?_, rfl⟩⟩
    exact except_bind_ok.mpr ⟨_, hready.path, rfl⟩

theorem EditCall.run_eq_ok {c : EditCall} :
    c.run E files = .ok files' ↔ c.Ready E ∧ ∃ ps ps',
      loadPatternsFromFile files (Path.base c.filename) = .ok ps ∧ c.edit.modify ps = .ok ps' ∧
      files' = c.save files ps' := by
  rw [run, PatternEdit.run_op]
  constructor
  · intro h
    obtain ⟨⟨⟩, hcheck, h⟩ := except_bind_ok.mp h
    obtain ⟨full, hfull, h⟩ := except_bind_ok.mp h
    obtain ⟨ps, hps, h⟩ := except_bind_ok.mp h
    obtain ⟨ps', hps', h⟩ := except_bind_ok.mp h
    have hbase := resolvePatternPath_ok hfull
    exact ⟨⟨hcheck, hbase ▸ hfull⟩, ps, ps', hbase ▸ hps, hps', savePatternsToFile_doc h⟩
  · rintro ⟨⟨hcheck, hpath⟩, ps, ps', hps, hps', rfl⟩
    refine except_bind_ok.mpr ⟨(), hcheck, except_bind_ok.mpr ⟨_, hpath, except_bind_ok.mpr ⟨ps, hps, ?_⟩⟩⟩
    exact except_bind_ok.mpr ⟨ps', hps', except_bind_ok.mpr ⟨_, hpath, rfl⟩⟩

def Holds (files : List RuleFile) (name : Text) (ps : List Pattern) : Prop :=
  content files name = some { patterns := ps.map Pattern.entry }

theorem entry_pattern (p : Pattern) : p.entry.pattern = p := rfl

theorem Holds.load (h : Holds files name ps) : loadPatternsFromFile files name = .ok ps := by
  obtain ⟨f, hf, hd⟩ := Option.bind_eq_some_iff.mp h
  rw [fileNamed] at hf
  simp only [loadPatternsFromFile, hf, hd, List.map_map]
  exact congrArg _ (List.map_id ps)

theorem Holds.inj (h : Holds files name ps) (h' : Holds files' name ps') :
    content files name = content files' name ↔ ps = ps' := by
  rw [h, h', Option.some.injEq, SecretPatterns.mk.injEq]
  have hinj : Function.Injective Pattern.entry := fun p q hpq => by
    rw [← entry_pattern p, hpq, entry_pattern]
  simp [hinj.list_map.eq_iff]

theorem EditCall.holds_save (c : EditCall) (files : List RuleFile) (ps : List Pattern) :
    Holds (c.save files ps) (Path.base c.filename) ps := by
  rw [Holds, content, save, fileNamed_putFile]
  rfl

theorem Holds.after {c : EditCall} (h : Holds files (Path.base c.filename) ps) (hready : c.Ready E) :
    Holds (c.after E files) (Path.base c.filename) (c.edit.after ps) := by
  rw [EditCall.after, PatternEdit.after]
  cases hmod : c.edit.modify ps with
  | ok ps' =>
    have hrun : c.run E files = .ok (c.save files ps') :=
      run_eq_ok.mpr ⟨hready, ps, ps', h.load, hmod, rfl⟩
    rw [hrun]
    exact c.holds_save files ps'
  | error e =>
    have hrun : (c.run E files).toOption = none := by
      cases hrun : c.run E files with
      | error e => rfl
      | ok files' =>
        obtain ⟨-, qs, qs', hqs, hqs', -⟩ := run_eq_ok.mp hrun
        cases h.load.symm.trans hqs
        cases hmod.symm.trans hqs'
    rw [hrun]
    exact h

def overlap (i j : Bool) : List FileStep := [.read j, .read !j, .write i, .write !i]

theorem interleaving_cases (h : Interleaving (callSteps false) (callSteps true) l) :
    (∃ i, l = callSteps i ++ callSteps !i) ∨ ∃ i j, l = overlap i j := by
  cases h with
  | left h =>
    cases h with
    | left h =>
      obtain rfl := h.nil_left
      exact .inl ⟨false, rfl⟩
    | right h =>
      cases h with
      | left h =>
        obtain rfl := h.nil_left
        exact .inr ⟨false, false, rfl⟩
      | right h =>
        obtain rfl := h.nil_right
        exact .inr ⟨true, false, rfl⟩
  | right h =>
    cases h with
    | right h =>
      obtain rfl := h.nil_right
      exact .inl ⟨true, rfl⟩
    | left h =>
      cases h with
      | left h =>
        obtain rfl := h.nil_left
        exact .inr ⟨false, true, rfl⟩
      | right h =>
        obtain rfl := h.nil_right
        exact .inr ⟨true, true, rfl⟩

theorem interleaving_overlap (i : Bool) :
    Interleaving (callSteps false) (callSteps true) (overlap i false) := by
  cases i with
  | false => exact .left (.right (.left (.right .nil)))
  | true => exact .left (.right (.right (.left .nil)))

variable {name : Text}

theorem run_overlap (hname : ∀ k, Path.base (calls k).filename = name) :
    s.run E calls (overlap i j) = .ok t ↔ (∀ k, (calls k).Ready E) ∧
      ∃ ps p q, loadPatternsFromFile s.files name = .ok ps ∧ (calls i).edit.modify ps = .ok p ∧
        (calls !i).edit.modify ps = .ok q ∧
        t = ⟨(calls !i).save ((calls i).save s.files p) q,
          Function.update (Function.update s.held j ps) (!j) ps⟩ := by
  have hheld : ∀ ps k, Function.update (Function.update s.held j ps) (!j) ps k = ps := by
    intro ps k
    cases j <;> cases k <;> rfl
  constructor
  · intro h
    obtain ⟨s₁, h₁, h⟩ := except_bind_ok.mp h
    obtain ⟨s₂, h₂, h⟩ := except_bind_ok.mp h
    obtain ⟨s₃, h₃, h⟩ := except_bind_ok.mp h
    obtain ⟨s₄, h₄, h⟩ := except_bind_ok.mp h
    cases h
    obtain ⟨hj, ps, hps, rfl⟩ := step_read.mp h₁
    obtain ⟨hj', ps', hps', rfl⟩ := step_read.mp h₂
    have hready : ∀ k, (calls k).Ready E := by
      intro k
      by_cases hk : k = j
      · exact hk ▸ hj
      · exact (Bool.eq_not_of_ne hk) ▸ hj'
    rw [hname] at hps hps'
    obtain rfl : ps = ps' := Except.ok.inj (hps.symm.trans hps')
    obtain ⟨p, hp, rfl⟩ := (step_write (hready i)).mp h₃
    obtain ⟨q, hq, rfl⟩ := (step_write (hready !i)).mp h₄
    simp only [hheld] at hp hq
    exact ⟨hready, ps, p, q, hps, hp, hq, rfl⟩
  · rintro ⟨hready, ps, p, q, hps, hp, hq, rfl⟩
    rw [← hname j] at hps
    have hps' := hps
    rw [hname j, ← hname !j] at hps'
    refine except_bind_ok.mpr ⟨_, step_read.mpr ⟨hready j, ps, hps, rfl⟩, ?_⟩
    refine except_bind_ok.mpr ⟨_, step_read.mpr ⟨hready _, ps, hps', rfl⟩, ?_⟩
    refine except_bind_ok.mpr ⟨_, (step_write (hready i)).mpr ⟨p, ?_, rfl⟩, ?_⟩
    · simp only [hheld, hp]
    · refine except_bind_ok.mpr ⟨_, (step_write (hready _)).mpr ⟨q, ?_, rfl⟩, rfl⟩
      simp only [hheld, hq]

def inOrder (E : Engine) (calls : Bool → EditCall) (files : List RuleFile) (i : Bool) : List RuleFile :=
  (calls !i).after E ((calls i).after E files)

theorem run_inOrder (h : s.run E calls (callSteps i ++ callSteps !i) = .ok t) :
    t.files = inOrder E calls s.files i := by
  rw [Editing.run, List.foldlM_append] at h
  obtain ⟨s', hs', h⟩ := except_bind_ok.mp h
  have hfirst := run_callSteps E calls s i
  have hsecond := run_callSteps E calls s' !i
  rw [Editing.run, hs'] at hfirst
  rw [Editing.run, h] at hsecond
  rw [inOrder, after, after, ← hfirst]
  change t.files = ((calls !i).run E s'.files).toOption.getD s'.files
  rw [← hsecond]
  rfl

theorem EditCall.after_of_ok {c : EditCall} (h : c.run E files = .ok files') :
    c.after E files = files' := by
  rw [after, h]
  rfl

theorem overlap_inOrder_iff (hname : ∀ k, Path.base (calls k).filename = name)
    (hready : ∀ k, (calls k).Ready E) (hps : loadPatternsFromFile files name = .ok ps)
    (hp : (calls i).edit.modify ps = .ok p) (hq : (calls !i).edit.modify ps = .ok q) :
    (∃ k, content ((calls !i).save ((calls i).save files p) q) name =
        content (inOrder E calls files k) name) ↔
      PatternEdit.Absorbed ps (calls i).edit (calls !i).edit := by
  have hlast : Holds ((calls !i).save ((calls i).save files p) q) name q :=
    hname (!i) ▸ holds_save _ _ _
  -- what a call leaves of a file that the other one has written
  have hthen : ∀ k r, (calls k).edit.modify ps = .ok r →
      Holds (inOrder E calls files k) name ((calls !k).edit.after r) := by
    intro k r hr
    have hrun : (calls k).run E files = .ok ((calls k).save files r) :=
      run_eq_ok.mpr ⟨hready k, ps, r, (hname k).symm ▸ hps, hr, rfl⟩
    have hfirst : Holds ((calls k).save files r) (Path.base (calls !k).filename) r := by
      rw [hname, ← hname k]
      exact holds_save _ _ _
    rw [inOrder, after_of_ok hrun, ← hname !k]
    exact hfirst.after (hready _)
  have hback := hthen (!i) q hq
  rw [Bool.not_not] at hback
  rw [← PatternEdit.absorbed_iff hp hq, ← hlast.inj (hthen i p hp), ← hlast.inj hback]
  constructor
  · rintro ⟨k, hk⟩
    by_cases hki : k = i
    · exact .inl (hki ▸ hk)
    · exact .inr (Bool.eq_not_of_ne hki ▸ hk)
  · rintro (h | h)
    · exact ⟨i, h⟩
    · exact ⟨!i, h⟩

/-- Two calls on one file leave in every interleaving what they leave one after the other, exactly if,
whenever both can work on the file as it is, the edit of each is absorbed by the other. -/
theorem edits_serializable_iff (E : Engine) (calls : Bool → EditCall) (files : List RuleFile)
    {name : Text} (hname : ∀ k, Path.base (calls k).filename = name) :
    (∀ l, Interleaving (callSteps false) (callSteps true) l → ∀ t,
        Editing.run E calls { files } l = .ok t →
        ∃ i, content t.files name = content (inOrder E calls files i) name) ↔
      ∀ ps, loadPatternsFromFile files name = .ok ps →
        (∀ k, ∃ files', (calls k).run E files = .ok files') →
        ∀ k, PatternEdit.Absorbed ps (calls k).edit (calls !k).edit := by
  constructor
  · intro hall ps hps hok k
    have hsome : ∀ k, (calls k).Ready E ∧ ∃ r, (calls k).edit.modify ps = .ok r := by
      intro k
      obtain ⟨files', hrun⟩ := hok k
      obtain ⟨hready, qs, r, hqs, hr, -⟩ := run_eq_ok.mp hrun
      rw [hname] at hqs
      cases hps.symm.trans hqs
      exact ⟨hready, r, hr⟩
    obtain ⟨p, hp⟩ := (hsome k).2
    obtain ⟨q, hq⟩ := (hsome !k).2
    refine (overlap_inOrder_iff hname (fun k => (hsome k).1) hps hp hq).mp ?_
    exact hall _ (interleaving_overlap k) _ ((run_overlap hname).mpr
      ⟨fun k => (hsome k).1, ps, p, q, hps, hp, hq, rfl⟩)
  · intro hall l hl t ht
    rcases interleaving_cases hl with ⟨i, rfl⟩ | ⟨i, j, rfl⟩
    · exact ⟨i, by rw [run_inOrder ht]⟩
    · obtain ⟨hready, ps, p, q, hps, hp, hq, rfl⟩ := (run_overlap hname).mp ht
      refine (overlap_inOrder_iff hname hready hps hp hq).mpr (hall ps hps (fun k => ?_) i)
      have hmod : ∃ r, (calls k).edit.modify ps = .ok r := by
        by_cases hki : k = i
        · exact ⟨p, hki ▸ hp⟩
        · exact ⟨q, Bool.eq_not_of_ne hki ▸ hq⟩
      obtain ⟨r, hr⟩ := hmod
      exact ⟨_, run_eq_ok.mpr ⟨hready k, ps, r, (hname k).symm ▸ hps, hr, rfl⟩⟩

end Steps

def twoRules : List RuleFile := [Rules.ruleFile "jwt.yaml" ["a", "b"] 1]

def switchSame : Bool → EditCall
  | false => ⟨"jwt.yaml".toList, .enable "a" false, 2⟩
  | true => ⟨"jwt.yaml".toList, .enable "a" true, 3⟩

theorem switch_same_serializable :
    Path.base "jwt.yaml".toList = "jwt.yaml".toList ∧
      ∀ l, Interleaving (callSteps false) (callSteps true) l → ∀ t,
        Editing.run Rules.literalEngine switchSame { files := twoRules } l = .ok t →
        ∃ i, content t.files "jwt.yaml".toList =
          content (inOrder Rules.literalEngine switchSame twoRules i) "jwt.yaml".toList := by
  have hbase : Path.base "jwt.yaml".toList = "jwt.yaml".toList := by decide +kernel
  refine ⟨hbase, (edits_serializable_iff _ _ _ fun k => ?_).mpr fun ps _ _ k => .inr (.inr ?_)⟩
  · cases k <;> exact hbase
  · cases k <;> rfl

def switchBoth : Bool → EditCall
  | false => ⟨"jwt.yaml".toList, .enable "a" false, 2⟩
  | true => ⟨"jwt.yaml".toList, .enable "b" false, 3⟩

/-- Both calls succeed, and the file has only `b` switched off.  In either order both patterns would
be. -/
theorem overlapping_edit_lost :
    (Editing.run Rules.literalEngine switchBoth { files := twoRules } (overlap false false)).map
        (fun t => loadPatternsFromFile t.files "jwt.yaml".toList) =
        .ok (.ok [⟨"a", "a", "high", true⟩, ⟨"b", "b", "high", false⟩]) ∧
      ∀ i, loadPatternsFromFile (inOrder Rules.literalEngine switchBoth twoRules i) "jwt.yaml".toList =
        .ok [⟨"a", "a", "high", false⟩, ⟨"b", "b", "high", false⟩] := by
  decide +kernel

end Morf.Detect
