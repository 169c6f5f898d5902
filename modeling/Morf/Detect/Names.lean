import Morf.Detect.Edits
import Mathlib.Data.List.Nodup

/-! The names of the patterns in a file under the calls of `utils/pattern.go`: which calls keep
them distinct. -/

namespace Morf.Detect

open Morf.Lib
open List

inductive PatternEdit
  | add (p : Pattern)
  | update (name : String) (p : Pattern)
  | delete (name : String)
  | enable (name : String) (enabled : Bool)
  deriving DecidableEq

def replaced (name : String) (f : Pattern → Pattern) (ps : List Pattern) :
    Except RuleError (List Pattern) :=
  match replaceFirst name f ps with
  | none => .error (.patternMissing name)
  | some ps => .ok ps

namespace PatternEdit

def op (filename : Text) : PatternEdit → RuleOp
  | .add p => .addPattern filename p
  | .update name p => .updatePattern filename name p
  | .delete name => .deletePattern filename name
  | .enable name enabled => .enablePattern filename name enabled

def check (E : Engine) : PatternEdit → Except RuleError Unit
  | .add p | .update _ p => validatePattern E p
  | .delete _ | .enable _ _ => .ok ()

def modify : PatternEdit → List Pattern → Except RuleError (List Pattern)
  | .add p, ps => do
    reject (ps.any (·.name = p.name)) (.patternExists p.name)
    return ps ++ [p]
  | .update name p, ps => replaced name (fun _ => p) ps
  | .delete name, ps => do
    let kept := ps.filter (·.name ≠ name)
    reject (kept.length = ps.length) (.patternMissing name)
    return kept
  | .enable name enabled, ps => replaced name (fun p => { p with enabled }) ps

theorem replaceIn_eq (name : String) (f : Pattern → Pattern) :
    replaceIn files now filename name f = (do
      let full ← resolvePatternPath filename
      let ps ← loadPatternsFromFile files full
      let ps ← replaced name f ps
      savePatternsToFile files now filename ps) := by
  refine bind_congr fun full => bind_congr fun ps => ?_
  rw [replaced]
  cases replaceFirst name f ps <;> rfl

theorem run_op (e : PatternEdit) :
    (e.op filename).run E files now = (do
      e.check E
      let full ← resolvePatternPath filename
      let ps ← loadPatternsFromFile files full
      let ps ← e.modify ps
      savePatternsToFile files now filename ps) := by
  cases e with
  | add p =>
    refine bind_congr fun _ => bind_congr fun full => bind_congr fun ps => ?_
    rw [modify, bind_assoc]
    rfl
  | update name p => exact bind_congr fun _ => replaceIn_eq name _
  | delete name =>
    refine bind_congr fun full => bind_congr fun ps => ?_
    rw [modify, bind_assoc]
    rfl
  | enable name enabled => exact replaceIn_eq name _

end PatternEdit

theorem replaceFirst_spec (h : replaceFirst name f ps = some ps') :
    ∃ before x after, ps = before ++ x :: after ∧
      (∀ p ∈ before, p.name ≠ name) ∧ x.name = name ∧ ps' = before ++ f x :: after := by
  induction ps generalizing ps' with
  | nil => cases h
  | cons p ps ih =>
    rw [replaceFirst] at h
    split at h
    · cases h
      exact ⟨[], p, ps, rfl, forall_mem_nil _, ‹_›, rfl⟩
    · obtain ⟨qs, hqs, rfl⟩ := Option.map_eq_some_iff.mp h
      obtain ⟨before, x, after, rfl, hbefore, hx, rfl⟩ := ih hqs
      exact ⟨p :: before, x, after, rfl, forall_mem_cons.mpr ⟨‹_›, hbefore⟩, hx, rfl⟩

theorem replaced_ok : replaced name f ps = .ok ps' ↔ replaceFirst name f ps = some ps' := by
  rw [replaced]
  cases replaceFirst name f ps with
  | none => exact ⟨nofun, nofun⟩
  | some qs => exact ⟨fun h => by cases h; rfl, fun h => by cases h; rfl⟩

def names (ps : List Pattern) : List String := ps.map (·.name)

theorem nodup_replaced {α : Type} {l r : List α} {n n' : α} (h : (l ++ n :: r).Nodup) :
    (l ++ n' :: r).Nodup ↔ n' = n ∨ n' ∉ l ++ n :: r := by
  rw [nodup_middle, nodup_cons] at h ⊢
  rw [and_iff_left h.2, mem_append, mem_append, mem_cons]
  constructor
  · intro hn'
    by_cases heq : n' = n
    · exact .inl heq
    · exact .inr (by tauto)
  · rintro (rfl | hn')
    · exact mem_append.not.mp h.1
    · tauto

theorem names_replaceFirst (h : replaceFirst name f ps = some ps') (hps : (names ps).Nodup) :
    ∃ x ∈ ps, x.name = name ∧
      ((names ps').Nodup ↔ (f x).name = name ∨ (f x).name ∉ names ps) := by
  obtain ⟨before, x, after, rfl, -, rfl, rfl⟩ := replaceFirst_spec h
  refine ⟨x, mem_append_right _ mem_cons_self, rfl, ?_⟩
  simp only [names, map_append, map_cons] at hps ⊢
  exact nodup_replaced hps

namespace PatternEdit

def KeepsNames (ps : List Pattern) : PatternEdit → Prop
  | .update name p => p.name = name ∨ p.name ∉ names ps
  | .add _ | .delete _ | .enable _ _ => True

theorem modify_nodup_iff {e : PatternEdit} (h : e.modify ps = .ok ps') (hps : (names ps).Nodup) :
    (names ps').Nodup ↔ e.KeepsNames ps := by
  cases e with
  | add p =>
    obtain ⟨u, hnew, h⟩ := except_bind_ok.mp h
    cases h
    rw [reject_ok, any_eq_false] at hnew
    refine iff_of_true ?_ trivial
    rw [names, map_append]
    refine nodup_append.mpr ⟨hps, nodup_singleton _, fun n hn n' hn' => ?_⟩
    obtain ⟨q, hq, rfl⟩ := mem_map.mp hn
    obtain rfl := mem_singleton.mp hn'
    simpa using hnew q hq
  | update name p =>
    obtain ⟨x, -, -, hiff⟩ := names_replaceFirst (replaced_ok.mp h) hps
    exact hiff
  | delete name =>
    obtain ⟨-, -, h⟩ := except_bind_ok.mp h
    cases h
    exact iff_of_true (hps.sublist (filter_sublist.map _)) trivial
  | enable name enabled =>
    obtain ⟨x, -, hx, hiff⟩ := names_replaceFirst (replaced_ok.mp h) hps
    exact iff_of_true (hiff.mpr (.inl hx)) trivial

end PatternEdit

def UniqueNames (files : List RuleFile) : Prop :=
  ∀ f ∈ files, ∀ d, f.doc = some d → (d.patterns.map (·.name)).Nodup

theorem eq_or_mem_of_mem_putFile (h : g ∈ putFile f files) : g = f ∨ g ∈ files := by
  induction files with
  | nil => exact .inl (mem_singleton.mp h)
  | cons g' gs ih =>
    rw [putFile] at h
    split at h
    · exact (mem_cons.mp h).imp_right (mem_cons_of_mem _)
    · split at h
      · exact mem_cons.mp h
      · rcases mem_cons.mp h with rfl | h
        · exact .inr mem_cons_self
        · exact (ih h).imp_right (mem_cons_of_mem _)

theorem uniqueNames_putFile (h : UniqueNames files) (name : Text) (now : Nat) (ps : List Pattern) :
    UniqueNames (putFile ⟨name, some { patterns := ps.map Pattern.entry }, now⟩ files) ↔
      (names ps).Nodup := by
  have hnames : (ps.map Pattern.entry).map (·.name) = names ps := by
    rw [map_map]
    rfl
  constructor
  · intro hall
    have hnew := hall _ (mem_putFile _ _) _ rfl
    rwa [hnames] at hnew
  · intro hps f hf d hd
    rcases eq_or_mem_of_mem_putFile hf with rfl | hf
    · cases hd
      rwa [hnames]
    · exact h f hf d hd

/-- The calls that keep the names of a file distinct: no list with a repeated name is written, and no
pattern is renamed to the name of another one. -/
def RuleOp.KeepsNames (files : List RuleFile) : RuleOp → Prop
  | .create _ ps | .update _ ps => (names ps).Nodup
  | .updatePattern filename name p => ∀ ps,
    loadPatternsFromFile files (Path.base filename) = .ok ps → p.name = name ∨ p.name ∉ names ps
  | .delete _ | .addPattern _ _ | .deletePattern _ _ | .enablePattern _ _ _ => True

theorem nodup_of_load (h : UniqueNames files) (hload : loadPatternsFromFile files name = .ok ps) :
    (names ps).Nodup := by
  unfold loadPatternsFromFile at hload
  split at hload
  · cases hload
  · rename_i f hf
    split at hload
    · cases hload
    · rename_i d hd
      cases hload
      have hnames := h f (mem_of_find?_eq_some hf) d hd
      rw [names, map_map]
      exact hnames

theorem PatternEdit.run_ok {e : PatternEdit} (h : (e.op filename).run E files now = .ok files') :
    ∃ ps ps', loadPatternsFromFile files (Path.base filename) = .ok ps ∧ e.modify ps = .ok ps' ∧
      files' = putFile ⟨Path.base filename, some { patterns := ps'.map Pattern.entry }, now⟩ files := by
  rw [PatternEdit.run_op] at h
  obtain ⟨-, -, h⟩ := except_bind_ok.mp h
  obtain ⟨full, hfull, h⟩ := except_bind_ok.mp h
  obtain ⟨ps, hps, h⟩ := except_bind_ok.mp h
  obtain ⟨ps', hps', h⟩ := except_bind_ok.mp h
  rw [resolvePatternPath_ok hfull] at hps
  exact ⟨ps, ps', hps, hps', savePatternsToFile_doc h⟩

theorem PatternEdit.uniqueNames_iff {e : PatternEdit} (hfiles : UniqueNames files)
    (h : (e.op filename).run E files now = .ok files') :
    UniqueNames files' ↔ ∀ ps, loadPatternsFromFile files (Path.base filename) = .ok ps →
      e.KeepsNames ps := by
  obtain ⟨ps, ps', hps, hps', rfl⟩ := PatternEdit.run_ok h
  rw [uniqueNames_putFile hfiles, PatternEdit.modify_nodup_iff hps' (nodup_of_load hfiles hps)]
  constructor
  · intro hkeep qs hqs
    cases hps.symm.trans hqs
    exact hkeep
  · exact fun hkeep => hkeep ps hps

theorem RuleOp.uniqueNames_iff {op : RuleOp} (hfiles : UniqueNames files)
    (h : op.run E files now = .ok files') : UniqueNames files' ↔ op.KeepsNames files := by
  cases op with
  | create filename ps =>
    obtain ⟨name, -, h⟩ := except_bind_ok.mp h
    obtain ⟨-, -, h⟩ := except_bind_ok.mp h
    obtain ⟨-, -, h⟩ := except_bind_ok.mp h
    rw [savePatternsToFile_doc h]
    exact uniqueNames_putFile hfiles _ _ _
  | update filename ps =>
    obtain ⟨-, -, h⟩ := except_bind_ok.mp h
    rw [savePatternsToFile_doc h]
    exact uniqueNames_putFile hfiles _ _ _
  | delete filename =>
    obtain ⟨name, -, h⟩ := except_bind_ok.mp h
    obtain ⟨-, -, h⟩ := except_bind_ok.mp h
    cases h
    exact iff_of_true (fun f hf => hfiles f (mem_of_mem_filter hf)) trivial
  | addPattern filename p =>
    have hiff := PatternEdit.uniqueNames_iff (e := .add p) hfiles h
    exact iff_of_true (hiff.mpr fun _ _ => trivial) trivial
  | updatePattern filename name p => exact PatternEdit.uniqueNames_iff (e := .update name p) hfiles h
  | deletePattern filename name =>
    have hiff := PatternEdit.uniqueNames_iff (e := .delete name) hfiles h
    exact iff_of_true (hiff.mpr fun _ _ => trivial) trivial
  | enablePattern filename name enabled =>
    have hiff := PatternEdit.uniqueNames_iff (e := .enable name enabled) hfiles h
    exact iff_of_true (hiff.mpr fun _ _ => trivial) trivial

def crud (E : Engine) (files : List RuleFile) : Machine (List RuleFile) (RuleOp × Nat) where
  init := files
  step files call := (call.1.run E files call.2).toOption

/-- Along a sequence of calls the names stay distinct exactly if each call keeps them so. -/
theorem names_stay_unique_iff (E : Engine) (files : List RuleFile) (hfiles : UniqueNames files)
    (calls : List (RuleOp × Nat)) :
    (crud E files).Along (fun _ _ after => UniqueNames after) files calls ↔
      (crud E files).Along (fun before call _ => call.1.KeepsNames before) files calls := by
  have hstep : ∀ before call after, UniqueNames before → (crud E files).step before call = some after →
      (UniqueNames after ↔ call.1.KeepsNames before) := by
    intro before call after hbefore h
    have h : (call.1.run E before call.2).toOption = some after := h
    cases hrun : call.1.run E before call.2 with
    | error e =>
      rw [hrun] at h
      cases h
    | ok fs =>
      rw [hrun] at h
      cases h
      exact RuleOp.uniqueNames_iff hbefore hrun
  exact Machine.along_iff hstep (fun before call after hbefore h hkeeps =>
    (hstep before call after hbefore h).mpr hkeeps) calls hfiles

theorem jwt_names_unique : UniqueNames [Rules.ruleFile "jwt.yaml" ["a", "b"] 1] := by
  intro f hf d hd
  obtain rfl := mem_singleton.mp hf
  cases hd
  decide

/-- A pattern gets a new name and another one is switched off. -/
theorem plain_edits_keep_names :
    (crud Rules.literalEngine [Rules.ruleFile "jwt.yaml" ["a", "b"] 1]).Along
      (fun _ _ after => UniqueNames after) [Rules.ruleFile "jwt.yaml" ["a", "b"] 1]
      [(.updatePattern "jwt.yaml".toList "a" ⟨"c", "c", "high", true⟩, 2),
        (.enablePattern "jwt.yaml".toList "b" false, 3)] := by
  refine (names_stay_unique_iff Rules.literalEngine _ jwt_names_unique _).mpr fun after _ =>
    ⟨fun ps hps => .inr ?_, fun _ _ => ⟨trivial, trivial⟩⟩
  have hload : loadPatternsFromFile [Rules.ruleFile "jwt.yaml" ["a", "b"] 1]
      (Path.base "jwt.yaml".toList) =
        .ok [⟨"a", "a", "high", true⟩, ⟨"b", "b", "high", true⟩] := by decide +kernel
  cases hload.symm.trans hps
  decide

/-- Renaming `b` to `a` succeeds, and then there are two patterns `a`.  Switching `a` off reaches only
the first of them, and deleting `a` removes both. -/
theorem rename_repeats_name :
    UniqueNames [Rules.ruleFile "jwt.yaml" ["a", "b"] 1] ∧
    ∃ renamed disabled deleted,
      (RuleOp.updatePattern "jwt.yaml".toList "b" ⟨"a", "x", "high", true⟩).run Rules.literalEngine
        [Rules.ruleFile "jwt.yaml" ["a", "b"] 1] 2 = .ok renamed ∧
      ¬ UniqueNames renamed ∧
      (RuleOp.enablePattern "jwt.yaml".toList "a" false).run Rules.literalEngine renamed 3 =
        .ok disabled ∧
      loadPatternsFromFile disabled "jwt.yaml".toList =
        .ok [⟨"a", "a", "high", false⟩, ⟨"a", "x", "high", true⟩] ∧
      (RuleOp.deletePattern "jwt.yaml".toList "a").run Rules.literalEngine renamed 3 = .ok deleted ∧
      loadPatternsFromFile deleted "jwt.yaml".toList = .ok [] := by
  refine ⟨jwt_names_unique,
    [⟨"jwt.yaml".toList,
      some { patterns := [⟨"a", "a", "high", "", some true⟩, ⟨"a", "x", "high", "", some true⟩] }, 2⟩],
    [⟨"jwt.yaml".toList,
      some { patterns := [⟨"a", "a", "high", "", some false⟩, ⟨"a", "x", "high", "", some true⟩] }, 3⟩],
    [⟨"jwt.yaml".toList, some { patterns := [] }, 3⟩],
    by decide +kernel, ?_, by decide +kernel, by decide +kernel, by decide +kernel, by decide +kernel⟩
  intro h
  exact absurd (h _ mem_cons_self _ rfl) (by decide)

end Morf.Detect
