import Morf.Detect.Rules

/-! Edits of one pattern through `utils/pattern.go`, and what they do to the other patterns of the
file as `buildPatternCache` loads them. -/

namespace Morf.Detect

open Morf.Lib
open List

def fileNamed (files : List RuleFile) (name : Text) : Option RuleFile := files.find? (·.name = name)

variable (E : Engine)

theorem fileNamed_putFile (f : RuleFile) (files : List RuleFile) :
    fileNamed (putFile f files) f.name = some f := by
  induction files with
  | nil => simp [putFile, fileNamed]
  | cons g gs ih =>
    rw [putFile]
    split
    · simp [fileNamed]
    · rename_i hne
      split
      · simp [fileNamed]
      · rw [fileNamed, find?_cons_of_neg (by simpa using Ne.symm hne)]
        exact ih

section Saved

variable {E}

end Saved

variable {E}

section Reload

variable {ps : List Pattern}

end Reload

end Morf.Detect
