import Mathlib.Data.Finset.Sort
import Mathlib.Data.String.Basic
import Morf.Lib.Json

/-! The baseline of `gate/gate.go`: the findings that have been accepted, and the file they are kept
in. -/

namespace Morf.Gate

open Morf.Lib

abbrev Text := List Char

@[ext]
structure Baseline where
  fingerprints : Finset String
  allowedFingerprints : Finset String
  allowedTypes : Finset String
  deriving DecidableEq

def newBaseline : Baseline := ⟨∅, ∅, ∅⟩

structure BaselineJSON where
  fingerprints : List String := []
  allowedFingerprints : List String := []
  allowedTypes : List String := []

def setToSortedSlice (m : Finset String) : List String := m.sort (· ≤ ·)

def sliceToSet (s : List String) : Finset String := s.toFinset

inductive Field
  | fingerprints
  | allowedFingerprints
  | allowedTypes
  deriving DecidableEq

def Field.name : Field → String
  | .fingerprints => "fingerprints"
  | .allowedFingerprints => "allowedFingerprints"
  | .allowedTypes => "allowedTypes"

def BaselineJSON.set (b : BaselineJSON) : Field → List String → BaselineJSON
  | .fingerprints, s => { b with fingerprints := s }
  | .allowedFingerprints, s => { b with allowedFingerprints := s }
  | .allowedTypes, s => { b with allowedTypes := s }

def marshalMember (f : Field) (s : List String) : Text × Json :=
  (f.name.toList, .array (s.map fun v => .string v.toList))

def omitEmpty (f : Field) (s : List String) : List (Text × Json) :=
  if s = [] then [] else [marshalMember f s]

def BaselineJSON.marshal (b : BaselineJSON) : Json :=
  .object (marshalMember .fingerprints b.fingerprints ::
    (omitEmpty .allowedFingerprints b.allowedFingerprints ++ omitEmpty .allowedTypes b.allowedTypes))

/-- Go leaves a string as it is when it meets `null`. -/
def unmarshalString : Json → Option String
  | .string s => some (String.ofList s)
  | .null => some ""
  | _ => none

def unmarshalStrings : Json → Option (List String)
  | .array xs => xs.mapM unmarshalString
  | .null => some []
  | _ => none

def foldRune (c : Char) : Char :=
  if c = '\u017f' then 'S' else if c = '\u212a' then 'K' else c.toUpper

/-- Keys are compared without regard to case. -/
def fieldNamed (key : Text) : Option Field :=
  [Field.fingerprints, .allowedFingerprints, .allowedTypes].find? fun f =>
    key.map foldRune == f.name.toList.map foldRune

def BaselineJSON.setMember (b : BaselineJSON) (m : Text × Json) : Option BaselineJSON :=
  match fieldNamed m.1 with
  | some f => (unmarshalStrings m.2).map (b.set f)
  | none => some b

open BaselineJSON

def BaselineJSON.unmarshal : Json → Option BaselineJSON
  | .object ms => ms.foldlM setMember {}
  | .null => some {}
  | _ => none

namespace Baseline

def marshalJSON (b : Baseline) : Json :=
  marshal
    ⟨setToSortedSlice b.fingerprints, setToSortedSlice b.allowedFingerprints,
      setToSortedSlice b.allowedTypes⟩

def unmarshalJSON (v : Json) : Option Baseline :=
  (unmarshal v).map fun b =>
    ⟨sliceToSet b.fingerprints, sliceToSet b.allowedFingerprints, sliceToSet b.allowedTypes⟩

def save (b : Baseline) : Text := Json.indent 0 b.marshalJSON

def isKnown : Option Baseline → String → String → Bool
  | none, _, _ => false
  | some b, fp, secretType =>
    fp ∈ b.fingerprints || fp ∈ b.allowedFingerprints || secretType ∈ b.allowedTypes

def allow (b : Baseline) (fp : String) : Baseline :=
  { b with allowedFingerprints := insert fp b.allowedFingerprints }

def allowType (b : Baseline) (secretType : String) : Baseline :=
  { b with allowedTypes := insert secretType b.allowedTypes }

instance : LE Baseline where
  le b c := b.fingerprints ⊆ c.fingerprints ∧ b.allowedFingerprints ⊆ c.allowedFingerprints ∧
    b.allowedTypes ⊆ c.allowedTypes

end Baseline

def loadBaseline (data : Text) : Option Baseline := (Json.parse data).bind Baseline.unmarshalJSON

theorem sliceToSet_setToSortedSlice (m : Finset String) : sliceToSet (setToSortedSlice m) = m :=
  Finset.sort_toFinset m _

theorem fieldNamed_name (f : Field) : fieldNamed f.name.toList = some f := by cases f <;> decide

theorem setMember_marshalMember (b : BaselineJSON) (f : Field) (s : List String) :
    b.setMember (marshalMember f s) = some (b.set f s) := by
  have h : (s.map fun v => Json.string v.toList).mapM unmarshalString = some s := by
    induction s with
    | nil => rfl
    | cons v s ih => simp [unmarshalString, ih]
  simp [setMember, marshalMember, fieldNamed_name, unmarshalStrings, h]

theorem foldlM_omitEmpty (b : BaselineJSON) (f : Field) (s : List String) (h : b.set f [] = b) :
    (omitEmpty f s).foldlM setMember b = some (b.set f s) := by
  unfold omitEmpty
  split
  case isTrue hs => rw [hs, h]; rfl
  case isFalse => simp [setMember_marshalMember]

theorem unmarshal_marshal (b : BaselineJSON) : unmarshal b.marshal = some b := by
  -- a list that is left out is empty in the record that the fields are read into
  simp only [marshal, unmarshal, List.foldlM_cons, List.foldlM_append,
    setMember_marshalMember, Option.bind_eq_bind, Option.bind_some]
  rw [foldlM_omitEmpty _ _ _ rfl, Option.bind_some, foldlM_omitEmpty _ _ _ rfl]
  rfl

theorem isPlain_marshalMember (f : Field) (s : List String) :
    Json.isPlain (marshalMember f s).2 = true := by
  have h : Json.plainItems (s.map fun v => Json.string v.toList) = true := by
    induction s with
    | nil => rfl
    | cons v s ih => exact ih
  exact h

theorem isPlain_marshal (b : BaselineJSON) : Json.isPlain b.marshal = true := by
  unfold marshal omitEmpty
  split <;> split <;> simp [Json.isPlain, Json.plainMembers, isPlain_marshalMember]

theorem loadBaseline_save (b : Baseline) : loadBaseline b.save = some b := by
  rw [loadBaseline, Baseline.save, Baseline.marshalJSON, Json.parse_indent (isPlain_marshal _)]
  simp [Baseline.unmarshalJSON, unmarshal_marshal, sliceToSet_setToSortedSlice]

end Morf.Gate
