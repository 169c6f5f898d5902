import Morf.Lib.Path
import Morf.Lib.Text

/-! The workspace of a job, from `utils/jobcontext.go`. -/

namespace Morf.Scan

open Morf.Lib Morf.Lib.Path
open List

structure Uuid where
  text : List Char
  length_eq : text.length = 36
  hex : ∀ x ∈ text, x ∈ "0123456789abcdef-".toList

def jobsDir : List Char := "/tmp/morf/jobs".toList

/-- `NewJobContextForID`: `fresh` is the identifier made for a job without one. -/
def workspace (fresh : Uuid) (jobID : List Char) : List Char :=
  join [jobsDir, if Text.trimSpace jobID = [] then fresh.text else jobID]

instance : DecidableEq Uuid := fun u v =>
  decidable_of_iff (u.text = v.text) (by cases u; cases v; simp)

namespace Uuid

variable (u : Uuid)

theorem ne_nil : u.text ≠ [] := by
  intro h
  have := u.length_eq
  simp [h] at this

theorem not_mem (h : x ∉ "0123456789abcdef-".toList) : x ∉ u.text :=
  fun hx => h (u.hex x hx)

theorem not_space (hx : x ∈ u.text) : Text.isSpace x = false := by
  have h : ∀ x ∈ "0123456789abcdef-".toList, Text.isSpace x = false :=
    Text.forall_of_all (by decide)
  exact h x (u.hex x hx)

theorem trimSpace_ne_nil : Text.trimSpace u.text ≠ [] := by
  have h := Text.trimSpace_append u.ne_nil (fun x hx => u.not_space hx) []
  simp only [append_nil] at h
  simp [h, u.ne_nil]

theorem plain : Path.Plain u.text where
  ne_nil := u.ne_nil
  no_slash := u.not_mem (by decide)
  ne_dot h := absurd (show '.' ∈ u.text by simp [h]) (u.not_mem (by decide))
  ne_dots h := absurd (show '.' ∈ u.text by simp [h]) (u.not_mem (by decide))

end Uuid

def jobsSegments : List (List Char) := ["tmp".toList, "morf".toList, "jobs".toList]

theorem jobsDir_eq : jobsDir = rooted jobsSegments := by decide

theorem jobsSegments_plain : ∀ s ∈ jobsSegments, Path.Plain s := by
  have h : ∀ s ∈ jobsSegments, s ≠ [] ∧ '/' ∉ s ∧ s ≠ ['.'] ∧ s ≠ ['.', '.'] := by decide
  exact fun s hs => ⟨(h s hs).1, (h s hs).2.1, (h s hs).2.2.1, (h s hs).2.2.2⟩

theorem workspace_rooted (fresh u : Uuid) :
    workspace fresh u.text = rooted (jobsSegments ++ [u.text]) := by
  rw [workspace, if_neg u.trimSpace_ne_nil, jobsDir_eq]
  refine join_rooted (by decide) jobsSegments_plain ?_
  simpa using u.plain

theorem workspace_eq (fresh u : Uuid) : workspace fresh u.text = jobsDir ++ '/' :: u.text := by
  rw [workspace_rooted, jobsDir_eq, rooted, flatMap_append]
  simp [rooted]

def jobRoot (u : Uuid) : List Char := workspace u u.text

def getInputDir (u : Uuid) : List Char := join [jobRoot u, "input".toList]
def getOutputDir (u : Uuid) : List Char := join [jobRoot u, "output".toList]
def getSourceDir (u : Uuid) : List Char :=
  join [jobRoot u, "output".toList, "apk".toList, "source".toList]
def getResDir (u : Uuid) : List Char :=
  join [jobRoot u, "output".toList, "apk".toList, "appres".toList]
def getFilesDir (u : Uuid) : List Char := getSourceDir u
def getIOSDir (u : Uuid) : List Char := join [jobRoot u, "output".toList, "ipa".toList]
def getIOSBinDir (u : Uuid) : List Char := join [getIOSDir u, "bin".toList]

theorem jobRoot_length (u : Uuid) : (jobRoot u).length = 51 := by
  have h : jobsDir.length = 14 := by decide
  simp [jobRoot, workspace_eq, h, u.length_eq]

theorem jobRoot_inj (h : jobRoot u = jobRoot v) : u = v := by
  simp only [jobRoot, workspace_eq, append_cancel_left_eq, cons.injEq, true_and] at h
  cases u; cases v; simpa using h

def jobSegments (u : Uuid) : List (List Char) := jobsSegments ++ [u.text]

theorem jobSegments_plain (u : Uuid) : ∀ s ∈ jobSegments u, Path.Plain s := by
  intro s hs
  rcases mem_append.mp hs with hs | hs
  · exact jobsSegments_plain s hs
  · rw [mem_singleton.mp hs]
    exact u.plain

def dirNames : List (List Char) :=
  ["input".toList, "output".toList, "apk".toList, "source".toList, "appres".toList,
    "ipa".toList, "bin".toList]

theorem dirNames_plain : ∀ s ∈ dirNames, Path.Plain s := by
  have h : ∀ s ∈ dirNames, s ≠ [] ∧ '/' ∉ s ∧ s ≠ ['.'] ∧ s ≠ ['.', '.'] := by decide
  exact fun s hs => ⟨(h s hs).1, (h s hs).2.1, (h s hs).2.2.1, (h s hs).2.2.2⟩

theorem join_dirNames (u : Uuid) (hds : ds ⊆ dirNames) (h : more ⊆ dirNames) :
    join (rooted (jobSegments u ++ ds) :: more) =
      rooted (jobSegments u ++ (ds ++ more)) := by
  rw [join_rooted (by simp [jobSegments]) ?_ fun s hs => dirNames_plain s (h hs),
    append_assoc]
  intro s hs
  rcases mem_append.mp hs with hs | hs
  · exact jobSegments_plain u s hs
  · exact dirNames_plain s (hds hs)

theorem jobRoot_rooted (u : Uuid) : jobRoot u = rooted (jobSegments u ++ []) := by
  rw [jobRoot, workspace_rooted, jobSegments, append_nil]

theorem dir_rooted (u : Uuid) (h : more ⊆ dirNames) :
    join (jobRoot u :: more) = rooted (jobSegments u ++ more) := by
  rw [jobRoot_rooted, join_dirNames u (by simp) h, nil_append]

theorem under_dir (u : Uuid) (more : List (List Char)) :
    under (jobRoot u) (rooted (jobSegments u ++ more)) = true := by
  rw [jobRoot_rooted, append_nil]
  exact under_rooted _ _

def jobA : Uuid :=
  ⟨"7b0c1f52-93d4-4c1e-8a66-0d2f5b9e31aa".toList, by decide, Text.forall_of_all (by decide)⟩

end Morf.Scan
