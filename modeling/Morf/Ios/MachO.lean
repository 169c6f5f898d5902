import Morf.Lib.Runs

/-! `ios/macho.go`: the strings of a Mach-O file and the corpus lines that hold them. What the
Mach-O library returns for a file is data here. -/

namespace Morf.Ios

open Morf.Lib
open Morf.Lib.Runs (MaximalRun)
open List

abbrev Text := List Char

abbrev Bytes := List UInt8

/-- A section as the Mach-O library reports it; `none` is a section whose bytes cannot be read. -/
structure Section where
  seg : Text
  name : Text
  cstringLiterals : Bool
  data : Option Bytes

structure Image where
  cryptIds : List Nat
  swiftReflectionStrings : Option (List Bytes)
  sections : List (Option Section)

inductive Opened
  | fat (arches : List (Text × Option Image))
  | notFat
  | failed

def stringMinLen : Nat := 4

def interestingSectionNames : List Text :=
  ["__cstring", "__const", "__rodata", "__oslogstring", "__cfstring", "__objc_methname",
    "__objc_classname", "__objc_methtype", "__objc_selrefs", "__swift5_reflstr",
    "__swift5_typeref", "__swift5_fieldmd", "__swift5_types", "__swift5_capture",
    "__swift5_builtin", "__swift5_assocty", "__swift5_proto", "__swift5_protos"].map String.toList

def machoIsEncrypted (f : Image) : Bool := f.cryptIds.any (· ≠ 0)

def isPrintableStringByte (b : UInt8) : Bool := b == 9 || (0x20 ≤ b && b ≤ 0x7e)

/-- `cur` of the loop is `data[start:i]`, empty while no run is open. -/
def splitNulStrings (data : Bytes) : List Bytes :=
  Runs.collect isPrintableStringByte (fun run => stringMinLen ≤ run.length) [] data

def StringRun (data run : Bytes) : Prop :=
  stringMinLen ≤ run.length ∧ MaximalRun isPrintableStringByte data run

theorem mem_splitNulStrings : run ∈ splitNulStrings data ↔ StringRun data run := by
  rw [splitNulStrings, Runs.mem_collect_nil, decide_eq_true_iff, StringRun]

abbrev Strings := List (Text × List Bytes)

namespace Strings

def append (label : Text) : Strings → Bytes → Strings
  | [], s => [(label, [s])]
  | (k, ss) :: m, s => if k = label then (k, ss ++ [s]) :: m else (k, ss) :: append label m s

def texts (m : Strings) : List Bytes := m.flatMap Prod.snd

variable {m : Strings}

end Strings

structure ArchStrings where
  arch : Text
  isEncrypted : Bool
  strings : Strings

def swiftReflHandled (f : Image) : Bool :=
  match f.swiftReflectionStrings with
  | some refl => refl ≠ []
  | none => false

def readsSection (handled : Bool) (sec : Section) : Bool :=
  (interestingSectionNames.contains sec.name || sec.cstringLiterals) &&
    !(handled && sec.seg = "__TEXT".toList && sec.name = "__swift5_reflstr".toList)

def reflectionStrings (f : Image) : List Bytes :=
  (f.swiftReflectionStrings.getD []).filter (stringMinLen ≤ ·.length)

def Image.HasRun (f : Image) (run : Bytes) : Prop :=
  ∃ sec data, some sec ∈ f.sections ∧ readsSection (swiftReflHandled f) sec = true ∧
    sec.data = some data ∧ StringRun data run

structure Library where
  openFat : Bytes → Opened
  openThin : Bytes → Option (Text × Image)

def Library.images (L : Library) (data : Bytes) : Option (List (Text × Option Image)) :=
  match L.openFat data with
  | .fat arches => some arches
  | .notFat => (L.openThin data).map fun thin => [(thin.1, some thin.2)]
  | .failed => none

structure BinaryStrings where
  architectures : List Text
  isEncrypted : Bool
  slices : List ArchStrings

structure CorpusLine where
  tag : Text
  text : Bytes
  deriving DecidableEq

def ascii (s : String) : Bytes := s.toList.map fun c => c.toNat.toUInt8

def encryptedText : Bytes := ascii "FairPlay cryptid!=0; string extraction skipped"

def isNewline (b : UInt8) : Bool := b == 10 || b == 13

def sanitizeLine (s : Bytes) : Bytes := s.map fun b => if isNewline b then 32 else b

/-- The order in which a map's entries are visited, which the language leaves open. -/
structure MapOrder where
  range : Strings → Strings
  perm (m : Strings) : (range m).Perm m

def sectionTag (arch label : Text) : Text :=
  "[arch=".toList ++ arch ++ " section=".toList ++ label ++ "]".toList

def writeSlice (o : MapOrder) (sl : ArchStrings) : List CorpusLine :=
  if sl.isEncrypted then [⟨sectionTag sl.arch "__ENCRYPTED__".toList, encryptedText⟩]
  else (o.range sl.strings).flatMap fun e =>
    e.2.map fun s => ⟨sectionTag sl.arch e.1, if s.any isNewline then sanitizeLine s else s⟩

def writeCorpus (o : MapOrder) (bs : BinaryStrings) : List CorpusLine :=
  bs.slices.flatMap (writeSlice o)

def lineTexts (lines : List CorpusLine) : List Bytes := lines.map CorpusLine.text

theorem sanitizeLine_eq_self (h : ∀ b ∈ s, isNewline b = false) : sanitizeLine s = s := by
  rw [sanitizeLine]
  refine (map_congr_left fun b hb => ?_).trans (map_id s)
  rw [h b hb]
  rfl

theorem sanitize_guard (s : Bytes) :
    (if s.any isNewline then sanitizeLine s else s) = sanitizeLine s := by
  split
  · rfl
  · rename_i h
    exact (sanitizeLine_eq_self (by simpa using h)).symm

theorem isNewline_of_printable (h : isPrintableStringByte b = true) : isNewline b = false := by
  rw [isNewline, Bool.or_eq_false_iff, beq_eq_false_iff_ne, beq_eq_false_iff_ne]
  constructor <;> rintro rfl <;> exact absurd h (by decide)

theorem StringRun.sanitizeLine (h : StringRun data run) : sanitizeLine run = run := by
  obtain ⟨-, -, -, -, hrun, -⟩ := h
  exact sanitizeLine_eq_self fun b hb => isNewline_of_printable (hrun b hb)

def Image.Yields (f : Image) (t : Bytes) : Prop :=
  (machoIsEncrypted f = true ∧ t = encryptedText) ∨
    machoIsEncrypted f = false ∧
      ((∃ s ∈ reflectionStrings f, sanitizeLine s = t) ∨ f.HasRun t)

def Library.Yields (L : Library) (data t : Bytes) : Prop :=
  ∃ arches arch f, L.images data = some arches ∧ (arch, some f) ∈ arches ∧ f.Yields t

end Morf.Ios
