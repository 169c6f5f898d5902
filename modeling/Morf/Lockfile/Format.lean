import Morf.Ios.Analysis
import Morf.Lib.Assign
import Morf.Lib.Search
import Morf.Lib.Utf8
import Morf.Sbom.Components

/-! `ParsePackageLockJSON` of `apk/lockfiles.go`, over the object `packages` of the lockfile: its
keys are the places of packages below the project, with the version of each. -/

namespace Morf.Lockfile

open Morf.Lib Morf.Lib.Assign Morf.Sbom
open scoped List

def nodeModules : Text := "node_modules/".toList

def trimPrefix (pre s : Text) : Text := if pre <+: s then s.drop pre.length else s

def packageName (key : Text) : Text :=
  let name := trimPrefix nodeModules key
  (Search.search (Search.past ('/' :: nodeModules) some) name).getD name

def packageEntry (entry : Text × Text) : Option (Text × Text) :=
  if entry.1 = [] ∨ entry.2 = [] then none
  else if packageName entry.1 = [] then none
  else some (packageName entry.1, entry.2)

def parsePackageLockJSON (packages : List (Text × Text)) : Text → Option Text :=
  assigned (packages.filterMap packageEntry)

def Flat (name : Text) : Prop := ¬ nodeModules <+: name ∧ ¬ '/' :: nodeModules <:+: name

/-- `name` is what follows the last folder of modules in the key. -/
def IsLastPart (key name : Text) : Prop :=
  Flat name ∧ ∃ parent, key = parent ++ nodeModules ++ name ∧ (parent = [] ∨ ['/'] <:+ parent)

/-- The versions do not depend on the order of the iteration, the names are the last parts of keys,
and for a package at the top the version is that of the top. -/
structure Hoisted (packages : List (Text × Text)) : Prop where
  same : ∀ order, order.Perm packages → parsePackageLockJSON order = parsePackageLockJSON packages
  names : ∀ name version, parsePackageLockJSON packages name = some version →
    ∃ entry ∈ packages, IsLastPart entry.1 name
  top : ∀ name version, name ≠ [] → Flat name → version ≠ [] →
    (nodeModules ++ name, version) ∈ packages → parsePackageLockJSON packages name = some version

theorem packageName_top (h : Flat name) : packageName (nodeModules ++ name) = name := by
  have htrim : trimPrefix nodeModules (nodeModules ++ name) = name := by
    rw [trimPrefix, if_pos (List.prefix_append _ _), List.drop_left]
  have hsearch : Search.search (Search.past ('/' :: nodeModules) some) name = none := by
    cases hs : Search.search (Search.past ('/' :: nodeModules) some) name with
    | none => rfl
    | some rest => exact absurd (Search.search_some hs) h.2
  simp only [packageName, htrim, hsearch, Option.getD_none]

def Kept (entry : Text × Text) : Prop := entry.2 ≠ [] ∧ packageName entry.1 ≠ []

theorem packageEntry_eq_some :
    packageEntry entry = some p ↔ Kept entry ∧ (packageName entry.1, entry.2) = p := by
  have hroot : packageName [] = [] := by decide
  by_cases hversion : entry.2 = []
  · simp [packageEntry, Kept, hversion]
  · by_cases hname : packageName entry.1 = []
    · simp [packageEntry, Kept, hname]
    · have hkey : entry.1 ≠ [] := fun h => hname (h ▸ hroot)
      simp [packageEntry, Kept, hversion, hname, hkey]

variable {packages : List (Text × Text)}

theorem mem_entries : p ∈ packages.filterMap packageEntry ↔
    ∃ e ∈ packages, Kept e ∧ (packageName e.1, e.2) = p := by
  simp only [List.mem_filterMap, packageEntry_eq_some]

theorem agree_entries_iff : Agree (packages.filterMap packageEntry) ↔
    ∀ e ∈ packages, ∀ e' ∈ packages, Kept e → Kept e' → packageName e.1 = packageName e'.1 →
      e.2 = e'.2 := by
  constructor
  · intro h e he e' he' hkept hkept'
    exact h _ (mem_entries.mpr ⟨e, he, hkept, rfl⟩) _ (mem_entries.mpr ⟨e', he', hkept', rfl⟩)
  · intro h p hp q hq hname
    obtain ⟨e, he, hkept, rfl⟩ := mem_entries.mp hp
    obtain ⟨e', he', hkept', rfl⟩ := mem_entries.mp hq
    exact h e he e' he' hkept hkept' hname

/-- The versions are the hoisted ones if keys that are read as one name have one version, and
each name that is read off a key is the last part of some key. -/
theorem hoisted_iff (packages : List (Text × Text)) : Hoisted packages ↔
    (∀ e ∈ packages, ∀ e' ∈ packages, Kept e → Kept e' → packageName e.1 = packageName e'.1 →
      e.2 = e'.2) ∧
    ∀ e ∈ packages, Kept e → ∃ e' ∈ packages, IsLastPart e'.1 (packageName e.1) := by
  constructor
  · intro h
    have hagree : Agree (packages.filterMap packageEntry) := forall_perm_iff.mp h.same
    refine ⟨agree_entries_iff.mp hagree, fun e he hkept => ?_⟩
    exact h.names _ _ (hagree.assigned_iff.mpr (mem_entries.mpr ⟨e, he, hkept, rfl⟩))
  · rintro ⟨hversions, hnames⟩
    have hagree := agree_entries_iff.mpr hversions
    refine ⟨forall_perm_iff.mpr hagree, fun name version hname => ?_,
      fun name version hne hflat hversion hmem => ?_⟩
    · obtain ⟨e, he, hkept, heq⟩ := mem_entries.mp (mem_of_assigned hname)
      obtain ⟨rfl, -⟩ := Prod.mk.inj heq
      exact hnames e he hkept
    · have hkept : Kept (nodeModules ++ name, version) :=
        ⟨hversion, (packageName_top hflat).symm ▸ hne⟩
      exact hagree.assigned_iff.mpr (mem_entries.mpr ⟨_, hmem, hkept, by rw [packageName_top hflat]⟩)

def nestedPackages : List (Text × Text) :=
  [("node_modules/a".toList, "1.0.0".toList), ("node_modules/b".toList, "3.0.0".toList),
    ("node_modules/b/node_modules/a".toList, "2.0.0".toList)]

theorem nested_version_returned :
    parsePackageLockJSON nestedPackages "a".toList = some "2.0.0".toList ∧
      parsePackageLockJSON nestedPackages.reverse "a".toList = some "1.0.0".toList ∧
      parsePackageLockJSON [("node_modules/a/node_modules/b/node_modules/c".toList, "1.0.0".toList)]
        "b/node_modules/c".toList = some "1.0.0".toList ∧
      ¬ Hoisted nestedPackages := by
  have hnested : parsePackageLockJSON nestedPackages "a".toList = some "2.0.0".toList := by decide
  have hreverse : parsePackageLockJSON nestedPackages.reverse "a".toList = some "1.0.0".toList := by
    decide
  refine ⟨hnested, hreverse, by decide, fun h => ?_⟩
  rw [h.same _ (List.reverse_perm _), hnested] at hreverse
  exact absurd hreverse (by decide)

/-! What the parsers of line-based lockfiles share. -/

open Morf.Ios (hasSuffix trimSuffix)
open List

abbrev Line := Text

abbrev Versions := Text → Option Text

def Yields (out : Versions) (versions : List (Text × Text)) : Prop :=
  ∀ name version, out name = some version ↔ (name, version) ∈ versions

theorem yields_iff (h : (versions.map Prod.fst).Nodup) :
    Yields out versions ↔ out = assigned versions := by
  have hagree : Agree versions := fun p hp q hq hkey =>
    congrArg Prod.snd (inj_on_of_nodup_map h hp hq hkey)
  constructor
  · intro hout
    funext name
    exact Option.ext fun version => (hout name version).trans hagree.assigned_iff.symm
  · rintro rfl name version
    exact hagree.assigned_iff

structure IsVersion (version : Text) : Prop where
  ne_nil : version ≠ []
  plain : ∀ c ∈ version, c ∉ ['"', '\x27', '(', ')'] ∧ Text.isSpace c = false

instance : DecidablePred IsVersion := fun version =>
  decidable_of_iff (version ≠ [] ∧
      (version.all fun c => c ∉ ['"', '\x27', '(', ')'] ∧ Text.isSpace c = false) = true)
    ⟨fun h => ⟨h.1, Text.forall_of_all h.2⟩, fun h => ⟨h.ne_nil, by simpa using h.plain⟩⟩

def trim (cutset : List Char) (s : Text) : Text :=
  ((s.dropWhile (· ∈ cutset)).reverse.dropWhile (· ∈ cutset)).reverse

theorem isSpace_of_isAlphanum (h : c.isAlphanum = true) : Text.isSpace c = false := by
  change ((decide ('A'.val ≤ c.val ∧ c.val ≤ 'Z'.val) ||
    decide ('a'.val ≤ c.val) && decide (c.val ≤ 'z'.val)) ||
    decide ('0'.val ≤ c.val) && decide (c.val ≤ '9'.val)) = true at h
  have hrange : 48 ≤ c.toNat ∧ c.toNat ≤ 122 := by
    simp only [UInt32.le_iff_toNat_le, Bool.or_eq_true, Bool.and_eq_true, decide_eq_true_eq] at h
    change ((65 ≤ c.toNat ∧ c.toNat ≤ 90) ∨ 97 ≤ c.toNat ∧ c.toNat ≤ 122) ∨
      48 ≤ c.toNat ∧ c.toNat ≤ 57 at h
    omega
  exact Text.isSpace_of_visible (by omega) (by omega)

theorem trimSpace_framed (hx : Text.isSpace x = false) (hy : Text.isSpace y = false) (s : Text) :
    Text.trimSpace (x :: (s ++ [y])) = x :: (s ++ [y]) := by
  rw [Text.trimSpace_cons hx, Text.trimRight_concat hy]

theorem takeWhile_run {s : Text} (hs : ∀ c ∈ s, p c = true) (hc : p c = false) (t : Text) :
    (s ++ c :: t).takeWhile p = s ∧ (s ++ c :: t).dropWhile p = c :: t := by
  constructor
  · rw [takeWhile_append_of_pos hs, takeWhile_cons_of_neg (by simp [hc]), append_nil]
  · rw [dropWhile_append_of_pos hs, dropWhile_cons_of_neg (by simp [hc])]

section Trim

variable {s : Text}

theorem trim_cons (hc : c ∈ cutset) (s : Text) : trim cutset (c :: s) = trim cutset s := by
  rw [trim, trim, dropWhile_cons_of_pos (by simpa using hc)]

theorem trim_concat (hs : ∃ x ∈ s, x ∉ cutset) (hc : c ∈ cutset) :
    trim cutset (s ++ [c]) = trim cutset s := by
  have hne : s.dropWhile (· ∈ cutset) ≠ [] := by
    obtain ⟨x, hx, hx'⟩ := hs
    exact fun h => hx' (of_decide_eq_true (dropWhile_eq_nil_iff.mp h x hx))
  rw [trim, trim, dropWhile_append, if_neg (by simpa using hne), reverse_append,
    reverse_singleton, singleton_append, dropWhile_cons_of_pos (by simpa using hc)]

theorem trim_eq_self (hs : ∀ x ∈ s, x ∉ cutset) : trim cutset s = s := by
  have hdrop : ∀ t : Text, (∀ x ∈ t, x ∉ cutset) → t.dropWhile (· ∈ cutset) = t := by
    intro t ht
    cases t with
    | nil => rfl
    | cons x t =>
      exact dropWhile_cons_of_neg (by simpa using ht x mem_cons_self)
  rw [trim, hdrop s hs, hdrop s.reverse fun x hx => hs x (mem_reverse.mp hx),
    reverse_reverse]

theorem trim_quoted (hne : s ≠ []) (hs : ∀ x ∈ s, x ∉ cutset) (hc : c ∈ cutset) :
    trim cutset (c :: (s ++ [c])) = s := by
  obtain ⟨x, hx⟩ := exists_mem_of_ne_nil s hne
  rw [trim_cons hc, trim_concat ⟨x, hx, hs x hx⟩ hc, trim_eq_self hs]

theorem trim_keeps {v : Text} (hw : ∀ x ∈ w, x ∈ cutset) (hne : v ≠ []) (hv : ∀ x ∈ v, x ∉ cutset)
    (u : Text) : ∃ rest, trim cutset (w ++ (v ++ u)) = v ++ rest := by
  have hdrop : ∀ t z : Text, t ≠ [] → (∀ x ∈ t, x ∉ cutset) →
      (t ++ z).dropWhile (· ∈ cutset) = t ++ z := by
    intro t z ht hall
    obtain ⟨x, t, rfl⟩ := exists_cons_of_ne_nil ht
    exact dropWhile_cons_of_neg (by simpa using hall x mem_cons_self)
  have hrev := hdrop v.reverse [] (by simpa using hne) fun x hx => hv x (mem_reverse.mp hx)
  rw [append_nil] at hrev
  rw [trim, dropWhile_append_of_pos fun x hx => decide_eq_true (hw x hx), hdrop v u hne hv,
    reverse_append, dropWhile_append]
  split
  · exact ⟨[], by rw [hrev, reverse_reverse, append_nil]⟩
  · exact ⟨(u.reverse.dropWhile (· ∈ cutset)).reverse,
      by rw [reverse_append, reverse_reverse]⟩

end Trim

theorem trimPrefix_append (pre s : Text) : trimPrefix pre (pre ++ s) = s := by
  rw [trimPrefix, if_pos (List.prefix_append pre s), drop_left]

theorem trimSuffix_append (s : Text) (suffix : String) :
    trimSuffix (s ++ suffix.toList) suffix = s := by
  have h : hasSuffix (s ++ suffix.toList) suffix = true :=
    isSuffixOf_iff_suffix.mpr (suffix_append _ _)
  rw [trimSuffix, if_pos h, length_append, String.length_toList, Nat.add_sub_cancel,
    take_left]

theorem trimSuffix_eq_self {s : Text} (h : ¬ suffix.toList <:+ s) : trimSuffix s suffix = s :=
  if_neg fun h' => h (isSuffixOf_iff_suffix.mp h')

theorem trimSuffix_colon_concat (hc : c ≠ ':') (s : Text) :
    trimSuffix (s ++ [c]) ":" = s ++ [c] := by
  refine trimSuffix_eq_self fun h => hc ?_
  obtain ⟨t, ht⟩ := h
  have hlast : (t ++ [':']).getLast? = (s ++ [c]).getLast? := congrArg getLast? ht
  rw [getLast?_concat, getLast?_concat] at hlast
  exact (Option.some.inj hlast).symm

theorem trimSuffix_isPrefix (s : Text) (suffix : String) : trimSuffix s suffix <+: s := by
  rw [trimSuffix]
  split
  · exact List.take_prefix _ _
  · exact prefix_refl s

end Morf.Lockfile
