import Morf.Lockfile.Pods
import Morf.Lockfile.Pubspec
import Morf.Lockfile.Yarn

/-! What the three parsers make of printed lockfiles. -/

namespace Morf.Lockfile

open Morf.Lib

/-- The versions of a Podfile.lock or a pubspec.lock are read just if its blank lines and comments
are out of the way; those of a classic yarn.lock always are. -/
theorem lockfiles_read (podfile : PodfileLock) (pubspec : PubspecLock) (yarn : YarnLock) :
    (Yields (parsePodfileLock podfile.text) podfile.versions ↔ podfile.Unbroken) ∧
      (Yields (parsePubspecLock pubspec.text) pubspec.versions ↔ pubspec.Undisturbed) ∧
      parseYarnLock yarn.text = yarn.firstVersions :=
  ⟨podfileLock_yields_iff podfile, pubspecLock_yields_iff pubspec, parseYarnLock_text yarn⟩

def spacedPods : PodfileLock where
  before := []
  pods := [.pod "A".toList "1.0".toList false, .other [], .pod "B".toList "2.0".toList false]
  after := []
  valid := by decide
  names := by decide
  single := by decide
  next := by decide
  lines := by decide

def annotatedPub : PubspecLock where
  before := []
  fillers := []
  entries :=
    [{ name := "http".toList
       fields := []
       version := "1.2.3".toList
       fillers := ["    # version: pinned".toList]
       isName := by decide
       isVersion := by decide
       isField := by decide
       isFiller := by decide }]
  after := []
  isFiller := by decide
  names := by decide
  single := by decide
  next := by decide
  isLine := by decide

/-- The second pod is lost, and the comment is taken for the version. -/
theorem lockfiles_misread :
    spacedPods.text = "PODS:\n  - A (1.0)\n\n  - B (2.0)\n".toList ∧
      ("B".toList, "2.0".toList) ∈ spacedPods.versions ∧
      parsePodfileLock spacedPods.text "B".toList = none ∧
      annotatedPub.text =
        "packages:\n  http:\n    version: \"1.2.3\"\n    # version: pinned\n".toList ∧
      parsePubspecLock annotatedPub.text "http".toList = some "# version: pinned".toList := by
  refine ⟨by decide, by decide, by decide, by decide, by decide⟩

end Morf.Lockfile
