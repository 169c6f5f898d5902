import Morf.Lib.Text

/-! An Android manifest as a tree, and the text that `aapt dump xmltree` prints for it. -/

namespace Morf.Apk

open Morf.Lib

abbrev Text := List Char

def isNameChar (c : Char) : Bool := !Text.isSpace c && !(['(', ')', ':', '=', '"'].contains c)

/-- A name of an element or an attribute, or a namespace. -/
@[ext]
structure Name where
  text : Text
  valid : text ≠ [] ∧ text.all isNameChar = true
  deriving DecidableEq

def isHexDigit (c : Char) : Bool := ('0' ≤ c && c ≤ '9') || ('a' ≤ c && c ≤ 'f')

structure Digits where
  text : Text
  valid : text ≠ [] ∧ text.all isHexDigit = true
  deriving DecidableEq

structure Word where
  text : Text
  valid : text ≠ [] ∧ text.all (!Text.isSpace ·) = true

structure Literal where
  text : Text
  valid : '"' ∉ text ∧ '\n' ∉ text
  deriving DecidableEq

/-- An attribute of the `android` namespace has a resource id, which is printed after its name. -/
inductive Key
  | android (name : Name) (id : Digits)
  | other (space : Option Name) (name : Name) (foreign : space.map Name.text ≠ some "android".toList)
  deriving DecidableEq

inductive Value
  | string (v : Literal)
  | typed (type data : Digits)
  deriving DecidableEq

structure Attr where
  key : Key
  value : Value
  deriving DecidableEq

/-- The name of an element: no element of a manifest has a name that continues the name of one of
these two. -/
structure Tag where
  name : Name
  plain : ∀ base ∈ ["application", "provider"], base.toList <+: name.text → name.text = base.toList
  deriving DecidableEq

inductive Element
  | mk (tag : Tag) (line : Digits) (attrs : List Attr) (children : List Element)

def androidText : Text := "android:".toList

def typeText : Text := "(type 0x".toList

def rawText : Text := " (Raw: ".toList

def Key.text : Key → Text
  | .android name id => androidText ++ name.text ++ ['(', '0', 'x'] ++ id.text ++ [')']
  | .other (some space) name _ => space.text ++ [':'] ++ name.text
  | .other none name _ => name.text

def Value.text : Value → Text
  | .string v => ['"'] ++ v.text ++ ['"'] ++ rawText ++ ['"'] ++ v.text ++ ['"', ')']
  | .typed type data => typeText ++ type.text ++ [')', '0', 'x'] ++ data.text

def Attr.text (a : Attr) : Text := a.key.text ++ ['='] ++ a.value.text

inductive Row
  | space (bound : Name) (uri : Word)
  | element (tag : Tag) (line : Digits)
  | attr (a : Attr)

def Row.text : Row → Text
  | .space bound uri => ['N', ':', ' '] ++ bound.text ++ ['='] ++ uri.text
  | .element tag line => ['E', ':', ' '] ++ tag.name.text ++ " (line=".toList ++ line.text ++ [')']
  | .attr a => ['A', ':', ' '] ++ a.text

def Row.isSpace : Row → Bool
  | .space .. => true
  | _ => false

def Row.attr? : Row → Option Attr
  | .attr a => some a
  | _ => none

def printLine (r : Nat × Row) : Text := List.replicate (2 * r.1) ' ' ++ r.2.text

def shift (n : Nat) (rows : List (Nat × Row)) : List (Nat × Row) :=
  rows.map fun r => (r.1 + n, r.2)

namespace Element

def tag : Element → Tag
  | .mk tag .. => tag

def attrs : Element → List Attr
  | .mk _ _ attrs _ => attrs

def children : Element → List Element
  | .mk _ _ _ children => children

mutual

def rows : Element → List (Nat × Row)
  | .mk tag line attrs children =>
    (0, .element tag line) :: (attrs.map (fun a => (1, .attr a)) ++ rowsIn children)

def rowsIn : List Element → List (Nat × Row)
  | [] => []
  | e :: es => shift 1 (rows e) ++ rowsIn es

end

def printedAttrs (e : Element) : List Attr := e.rows.filterMap fun r => r.2.attr?

def is (e : Element) (name : String) : Bool := e.tag.name.text == name.toList

end Element

def Row.is (name : String) : Row → Bool
  | .element tag _ => tag.name.text == name.toList
  | _ => false

def manifestTag : Tag := ⟨⟨"manifest".toList, by decide⟩, by decide⟩

def applicationTag : Tag := ⟨⟨"application".toList, by decide⟩, by decide⟩

/-- A manifest has one application, and providers stand in it directly (or outside of it, in a
query). -/
structure Manifest where
  spaces : List (Name × Word)
  line : Digits
  attrs : List Attr
  before : List Element
  appLine : Digits
  appAttrs : List Attr
  components : List Element
  after : List Element
  outside : ∀ e ∈ before ++ after, ∀ r ∈ e.rows, r.2.is "application" = false
  inside : ∀ e ∈ components, e.is "application" = false ∧
    ∀ r ∈ Element.rowsIn e.children, r.2.is "application" = false ∧ r.2.is "provider" = false

namespace Manifest

def providers (m : Manifest) : List Element := m.components.filter (·.is "provider")

def application (m : Manifest) : Element := .mk applicationTag m.appLine m.appAttrs m.components

def root (m : Manifest) : Element :=
  .mk manifestTag m.line m.attrs (m.before ++ m.application :: m.after)

def spaceRows : Nat → List (Name × Word) → List (Nat × Row)
  | _, [] => []
  | n, (bound, uri) :: spaces => (n, .space bound uri) :: spaceRows (n + 1) spaces

def rows (m : Manifest) : List (Nat × Row) :=
  spaceRows 0 m.spaces ++ shift m.spaces.length m.root.rows

def xmlTree (m : Manifest) : Text := m.rows.flatMap fun r => printLine r ++ ['\n']

end Manifest

theorem Name.not_mem (n : Name) (h : isNameChar c = false) : c ∉ n.text := fun hc => by
  simp [List.all_eq_true.mp n.valid.2 c hc] at h

theorem Digits.not_mem (d : Digits) (h : isHexDigit c = false) : c ∉ d.text :=
  fun hc => by simp [List.all_eq_true.mp d.valid.2 c hc] at h

theorem Digits.not_mem_number (d : Digits) (h : isHexDigit c = false) (hx : c ≠ 'x') :
    c ∉ ['0', 'x'] ++ d.text := by
  intro hc
  rcases List.mem_append.mp hc with hc | hc
  · rcases List.mem_cons.mp hc with rfl | hc
    · exact absurd h (by decide)
    · exact hx (List.mem_singleton.mp hc)
  · exact d.not_mem h hc

theorem Word.not_mem (w : Word) (h : Text.isSpace c = true) : c ∉ w.text := fun hc => by
  simpa [h] using List.all_eq_true.mp w.valid.2 c hc

end Morf.Apk
