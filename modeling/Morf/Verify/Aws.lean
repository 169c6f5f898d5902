import Mathlib.Data.Finset.Sort
import Morf.Lib.Text

/-! The signed request of `verify/aws.go`: its query and the canonical query that is signed. -/

namespace Morf.Verify.Aws

open Morf.Lib List Function

abbrev Bytes := List UInt8

def ascii (s : List Char) : Bytes := s.map Char.toUInt8

@[simp] theorem ascii_append (s t : List Char) : ascii (s ++ t) = ascii s ++ ascii t := map_append

def text (s : String) : Bytes := ascii s.toList

abbrev space : UInt8 := ' '.toUInt8

def isUnreserved (ch : UInt8) : Bool :=
  ('A'.toUInt8 ≤ ch && ch ≤ 'Z'.toUInt8) || ('a'.toUInt8 ≤ ch && ch ≤ 'z'.toUInt8) ||
    ('0'.toUInt8 ≤ ch && ch ≤ '9'.toUInt8) || ch = '-'.toUInt8 || ch = '_'.toUInt8 ||
    ch = '.'.toUInt8 || ch = '~'.toUInt8

def upperhex (n : UInt8) : UInt8 := (text "0123456789ABCDEF").getD n.toNat 0

def escape (ch : UInt8) : Bytes := ['%'.toUInt8, upperhex (ch >>> 4), upperhex (ch &&& 0x0f)]

/-- `url.QueryEscape` -/
def queryEscape (s : Bytes) : Bytes :=
  s.flatMap fun ch =>
    if ch = space then ['+'.toUInt8] else if isUnreserved ch then [ch] else escape ch

/-- `url.Values` -/
structure Values where
  keys : Finset Bytes := ∅
  get : Bytes → List Bytes := fun _ => []

namespace Values

def set (q : Values) (key value : Bytes) : Values :=
  ⟨insert key q.keys, update q.get key [value]⟩

/-- The pairs of a query, by their keys in byte order. -/
def parts (encode : Bytes → Bytes) (q : Values) : List Bytes :=
  (q.keys.sort (· ≤ ·)).flatMap fun k => (q.get k).map fun v => encode k ++ '='.toUInt8 :: encode v

def encode (q : Values) : Bytes := ['&'.toUInt8].intercalate (q.parts queryEscape)

end Values

namespace Clock

end Clock

structure Url where
  host : Bytes
  path : Bytes

/-- A request, with the canonical query its signature is about. -/
structure Request where
  url : Url
  rawQuery : Bytes
  signed : Bytes

namespace Values

variable {q : Values} {name value : Bytes}

def NoSpaces (q : Values) : Prop :=
  ∀ k ∈ q.keys, space ∉ k ∧ ∀ v ∈ q.get k, space ∉ v

@[simp] theorem get_set_self : (q.set name value).get name = [value] := update_self ..

theorem get_set_of_ne {k : Bytes} (h : k ≠ name) : (q.set name value).get k = q.get k :=
  update_of_ne h ..

theorem NoSpaces.set (h : q.NoSpaces) (hname : space ∉ name) (hvalue : space ∉ value) :
    (q.set name value).NoSpaces := by
  intro k hk
  by_cases hkn : k = name
  · subst hkn
    exact ⟨hname, by simpa using hvalue⟩
  · rw [get_set_of_ne hkn]
    exact h k (Finset.mem_of_mem_insert_of_ne hk hkn)

end Values

end Morf.Verify.Aws
