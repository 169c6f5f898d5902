import Morf.Lib.Json
import Morf.Lib.Keyed
import Morf.Sbom.Inventory

/-! `EnumerateNativeLibs` of `apk/artifacts.go`, with its loops and the hashes of the libraries. -/

namespace Morf.Sbom.NativeLibs

open Morf.Lib
open Morf.Ios (Bytes Disk Path hasSuffix)
open Prod

structure NativeComponent where
  component : SBOMComponent
  hashes : List (Text × Text)

def newNativeLibComponent (name : Text) (abis : List Text) (sha256 : Text) : NativeComponent :=
  ⟨Sbom.newNativeLibComponent name abis, if sha256 ≠ [] then [("SHA-256".toList, sha256)] else []⟩

def maxNativeLibHashBytes : Nat := 64 * 1024 * 1024

def hexText (sum : Vector UInt8 32) : Text :=
  sum.toList.flatMap fun b => [Json.hexDigit (b.toNat / 16), Json.hexDigit (b.toNat % 16)]

/-- The order of the iteration over a map. -/
structure NameOrder where
  range : List Text → List Text
  perm (l : List Text) : (range l).Perm l

/-- The map `byName`: the ABIs of each name so far. -/
def addLib (libs : List (Text × List Text)) (so : Text × Text) : List (Text × List Text) :=
  if so.1 ∈ libs.map fst then Keyed.change fst so.1 (fun lib => (lib.1, lib.2 ++ [so.2])) libs
  else libs ++ [(so.1, [so.2])]

section Enumerate

variable (sha256 : Bytes → Vector UInt8 32) (d : Disk) (src : Path)

def hashFileSHA256 (path : Path) : Option Text :=
  (d.read path).map fun content => hexText (sha256 (content.take maxNativeLibHashBytes))

def soPath (abi name : Text) : Path := src ++ ["lib".toList, abi, name]

/-- The loop over the ABIs of a library; a file that cannot be read is skipped. -/
def repDigest (name : Text) (abis : List Text) : Text :=
  abis.foldl (fun rep abi =>
    match hashFileSHA256 sha256 d (soPath src abi name) with
    | none => rep
    | some digest => if rep = [] then digest else rep) []

def enumerateNativeLibs (o : NameOrder) : List NativeComponent :=
  let libs := (soFiles d src).foldl addLib []
  ((o.range (libs.map fst)).insertionSort (· ≤ ·)).map fun name =>
    let abis := ((libs.lookup name).getD []).insertionSort (· ≤ ·)
    newNativeLibComponent name abis (repDigest sha256 d src name abis)

end Enumerate

/-- What the walk has put into the map. -/
structure Grouped (libs : List (Text × List Text)) (files : List (Text × Text)) : Prop where
  nodup : (libs.map fst).Nodup
  names : ∀ name, name ∈ libs.map fst ↔ name ∈ files.map fst
  abis : ∀ lib ∈ libs, lib.2 = (files.filter (·.1 = lib.1)).map snd

theorem Grouped.filter_eq_nil (h : Grouped libs files) (hnew : name ∉ libs.map fst) :
    files.filter (·.1 = name) = [] :=
  List.filter_eq_nil_iff.mpr fun _ hso he =>
    hnew ((h.names name).mpr (of_decide_eq_true he ▸ List.mem_map_of_mem hso))

theorem Grouped.add (h : Grouped libs files) (so : Text × Text) :
    Grouped (addLib libs so) (files ++ [so]) := by
  have hfiles : ∀ name, ((files ++ [so]).filter (·.1 = name)).map snd =
      (files.filter (·.1 = name)).map snd ++ if so.1 = name then [so.2] else [] := fun name => by
    by_cases hname : so.1 = name <;> simp [hname]
  rw [addLib]
  split
  · rename_i hmem
    have hkeys : (Keyed.change fst so.1 (fun lib => (lib.1, lib.2 ++ [so.2])) libs).map fst =
        libs.map fst := Keyed.map_change (f := fun lib => (lib.1, lib.2 ++ [so.2])) (fun _ => rfl) libs
    refine ⟨hkeys ▸ h.nodup, fun name => ?_, fun lib hlib => ?_⟩
    · rw [hkeys, h.names, List.map_append, List.mem_append]
      refine ⟨.inl, fun hor => hor.elim id fun hso => ?_⟩
      rw [List.mem_singleton.mp hso]
      exact (h.names so.1).mp hmem
    · obtain ⟨old, hold, rfl⟩ := List.mem_map.mp hlib
      have habis := h.abis old hold
      rw [hfiles]
      by_cases hname : old.1 = so.1
      · rw [if_pos hname, if_pos hname.symm, ← habis]
      · rw [if_neg hname, if_neg (Ne.symm hname), List.append_nil, ← habis]
  · rename_i hnew
    refine ⟨Keyed.nodup_concat h.nodup hnew, fun name => ?_, fun lib hlib => ?_⟩
    · rw [List.map_append, List.map_append, List.mem_append, List.mem_append, h.names]
      rfl
    · rw [hfiles]
      rcases List.mem_append.mp hlib with hlib | hlib
      · have hname : so.1 ≠ lib.1 := fun he => hnew (he ▸ List.mem_map_of_mem hlib)
        rw [if_neg hname, List.append_nil, h.abis lib hlib]
      · rw [List.mem_singleton.mp hlib, h.filter_eq_nil hnew]
        simp

theorem grouped_foldl (files : List (Text × Text)) : Grouped (files.foldl addLib []) files := by
  induction files using List.reverseRecOn with
  | nil => exact ⟨List.nodup_nil, fun _ => Iff.rfl, fun _ h => absurd h List.not_mem_nil⟩
  | append_singleton files so ih =>
    rw [List.foldl_append]
    exact ih.add so

theorem Grouped.lookup (h : Grouped libs files) (name : Text) :
    (libs.lookup name).getD [] = (files.filter (·.1 = name)).map snd := by
  cases hlookup : libs.lookup name with
  | some abis => exact h.abis _ ((Keyed.lookup_iff_mem h.nodup).mp hlookup)
  | none =>
    have hnew : name ∉ libs.map fst := by
      intro hmem
      obtain ⟨⟨_, abis⟩, hlib, rfl⟩ := List.mem_map.mp hmem
      rw [(Keyed.lookup_iff_mem h.nodup).mpr hlib] at hlookup
      cases hlookup
    rw [h.filter_eq_nil hnew]
    rfl

/-- The loops compute the listing of the inventory, whatever the order of the map. -/
theorem enumerateNativeLibs_eq (sha256 : Bytes → Vector UInt8 32) (d : Disk) (src : Path) (o : NameOrder) :
    enumerateNativeLibs sha256 d src o = (nativeLibNames d src).map fun lib =>
      newNativeLibComponent lib.1 lib.2 (repDigest sha256 d src lib.1 lib.2) := by
  have hgroup := grouped_foldl (soFiles d src)
  have hperm : (o.range (((soFiles d src).foldl addLib []).map fst)).Perm
      (Distinct.firsts id ((soFiles d src).map fst)) :=
    (o.perm _).trans ((List.perm_ext_iff_of_nodup hgroup.nodup (Distinct.nodup_firsts_self _)).mpr
      fun name => (hgroup.names name).trans Distinct.mem_firsts_self.symm)
  have hsort := List.Perm.eq_of_sortedLE List.sortedLE_insertionSort List.sortedLE_insertionSort
    (((List.perm_insertionSort (· ≤ ·) _).trans hperm).trans (List.perm_insertionSort (· ≤ ·) _).symm)
  rw [enumerateNativeLibs, nativeLibNames, List.map_map, hsort]
  refine List.map_congr_left fun name _ => ?_
  rw [hgroup.lookup]
  rfl

section Tree

variable {d : Disk}

/-- A path is there once, and the parts of a path are not empty. -/
structure IsTree (d : Disk) : Prop where
  nodup : (d.map fst).Nodup
  named : ∀ e ∈ d, [] ∉ e.1

/-- A library in the directory of an ABI. -/
structure HasLib (d : Disk) (src : Path) (abi name : Text) (content : Bytes) : Prop where
  root : d.isDir (src ++ ["lib".toList]) = true
  dir : d.isDir (src ++ ["lib".toList, abi]) = true
  file : d.read (soPath src abi name) = some content
  suffix : hasSuffix name ".so" = true

theorem listed {dir : Path} {x : Path × Option Bytes} {e : Text × Bool}
    (h : (if x.1.dropLast = dir then x.1.getLast?.map (·, x.2.isNone) else none) = some e) :
    x.1 = dir ++ [e.1] ∧ x.2.isNone = e.2 := by
  split at h
  · rename_i hdir
    obtain ⟨name, hname, rfl⟩ := Option.map_eq_some_iff.mp h
    exact ⟨by rw [← hdir, List.dropLast_append_getLast? _ hname], rfl⟩
  · cases h

theorem mem_readDir {e : Text × Bool} : e ∈ (d.readDir dir).getD [] ↔
    d.isDir dir = true ∧ ∃ c, (dir ++ [e.1], c) ∈ d ∧ c.isNone = e.2 := by
  rw [Disk.readDir]
  split
  · rename_i hdir
    simp only [Option.getD_some, List.mem_filterMap, hdir, true_and]
    constructor
    · rintro ⟨⟨p, c⟩, hx, he⟩
      obtain ⟨rfl, hc⟩ := listed he
      exact ⟨c, hx, hc⟩
    · rintro ⟨c, hc, hisDir⟩
      exact ⟨_, hc, by simp [hisDir]⟩
  · simp_all

namespace IsTree

theorem isDir_iff (hd : IsTree d) : d.isDir p = true ↔ (p, none) ∈ d := by
  rw [Disk.isDir, beq_iff_eq, Keyed.lookup_iff_mem hd.nodup]

theorem read_iff (hd : IsTree d) : d.read p = some content ↔ (p, some content) ∈ d := by
  rw [Disk.read, Option.join_eq_some_iff, Keyed.lookup_iff_mem hd.nodup]

theorem mem_soFiles (hd : IsTree d) :
    (name, abi) ∈ soFiles d src ↔ ∃ content, HasLib d src abi name content := by
  have hdir : src ++ ["lib".toList] ++ [abi] = src ++ ["lib".toList, abi] := by simp
  have hfile : src ++ ["lib".toList, abi] ++ [name] = soPath src abi name := by simp [soPath]
  simp only [soFiles, List.mem_flatMap]
  constructor
  · rintro ⟨⟨abi', isDir⟩, habi, hso⟩
    split at hso
    · obtain ⟨⟨name', isDir'⟩, hname, hpair⟩ := List.mem_filterMap.mp hso
      split at hpair
      · cases hpair
      · rename_i hplain
        cases hpair
        simp only [Bool.or_eq_true, Bool.not_eq_true', not_or, Bool.not_eq_true, Bool.not_eq_false] at hplain
        obtain ⟨hisDir, c, hc, hsome⟩ := mem_readDir.mp hname
        rw [hdir, hfile] at hc
        obtain ⟨content, rfl⟩ := Option.isSome_iff_exists.mp (by simpa [hplain.1] using hsome)
        exact ⟨content, (mem_readDir.mp habi).1, hdir ▸ hisDir, hd.read_iff.mpr hc, hplain.2⟩
    · cases hso
  · rintro ⟨content, hroot, habi, hread, hsuffix⟩
    rw [← hdir] at habi
    refine ⟨(abi, true), mem_readDir.mpr ⟨hroot, none, hd.isDir_iff.mp habi, rfl⟩, ?_⟩
    refine List.mem_filterMap.mpr ⟨(name, false), mem_readDir.mpr ⟨habi, some content, ?_, rfl⟩, ?_⟩
    · rw [hdir, hfile]
      exact hd.read_iff.mp hread
    · simp [hsuffix]

theorem pairwise_readDir (hd : IsTree d) (dir : Path) :
    ((d.readDir dir).getD []).Pairwise fun e e' => e.1 ≠ e'.1 := by
  rw [Disk.readDir]
  split
  · refine (List.pairwise_map.mp hd.nodup).filterMap _ fun x x' hne e he e' he' heq => hne ?_
    rw [(listed he).1, (listed he').1, heq]
  · exact List.Pairwise.nil

theorem nodup_soFiles (hd : IsTree d) : (soFiles d src).Nodup := by
  have hpair : ∀ {abi : Text} {so : Text × Bool} {p : Text × Text},
      (if so.2 || !hasSuffix so.1 ".so" then none else some (so.1, abi)) = some p → p = (so.1, abi) := by
    intro abi so p hp
    split at hp
    · cases hp
    · exact (Option.some.inj hp).symm
  refine List.pairwise_flatMap.mpr ⟨fun abi _ => ?_, ?_⟩
  · split
    · refine (hd.pairwise_readDir _).filterMap _ fun so so' hne p hp p' hp' heq => hne ?_
      rw [hpair hp, hpair hp'] at heq
      exact (mk.inj heq).1
    · exact List.Pairwise.nil
  · refine (hd.pairwise_readDir _).imp fun {abi abi'} hne p hp p' hp' heq => hne ?_
    have hsnd : ∀ {abi : Text × Bool} {p : Text × Text}, p ∈ (if abi.2 then
        ((d.readDir (src ++ ["lib".toList] ++ [abi.1])).getD []).filterMap fun so =>
          if so.2 || !hasSuffix so.1 ".so" then none else some (so.1, abi.1) else []) → p.2 = abi.1 := by
      intro abi p hp
      split at hp
      · obtain ⟨so, -, hso⟩ := List.mem_filterMap.mp hp
        rw [hpair hso]
      · cases hp
    rw [← hsnd hp, ← hsnd hp', heq]

end IsTree

end Tree

theorem hexText_ne_nil (sum : Vector UInt8 32) : hexText sum ≠ [] := by
  intro h
  have hlength := congrArg List.length h
  simp [hexText, List.length_flatMap] at hlength

theorem repDigest_cons (h : d.read (soPath src abi name) = some content) (abis : List Text) :
    repDigest sha256 d src name (abi :: abis) = hexText (sha256 (content.take maxNativeLibHashBytes)) := by
  have hkeep : ∀ (digest : Text), digest ≠ [] → ∀ abis : List Text, abis.foldl (fun rep abi =>
      match hashFileSHA256 sha256 d (soPath src abi name) with
      | none => rep
      | some digest => if rep = [] then digest else rep) digest = digest := by
    intro digest hne abis
    induction abis with
    | nil => rfl
    | cons abi abis ih =>
      rw [List.foldl_cons]
      split
      · exact ih
      · rw [if_neg hne, ih]
  rw [repDigest, List.foldl_cons, hashFileSHA256, h]
  exact hkeep _ (hexText_ne_nil _) abis

theorem sortedLT_insertionSort {l : List Text} (h : l.Nodup) : (l.insertionSort (· ≤ ·)).SortedLT :=
  List.sortedLE_insertionSort.sortedLT_of_nodup ((List.perm_insertionSort _ l).nodup_iff.mpr h)

/-- The entry for a library: its occurrences are those in the directories of ABIs, in order, and it
has the hash of the first `maxNativeLibHashBytes` bytes of the first of them. -/
def Describes (sha256 : Bytes → Vector UInt8 32) (d : Disk) (src : Path) (c : NativeComponent) : Prop :=
  ∃ abi abis content, (abi :: abis).SortedLT ∧
    (∀ a, a ∈ abi :: abis ↔ ∃ b, HasLib d src a c.component.name b) ∧
    c.component.occurrences =
      (abi :: abis).map (fun a => "lib/".toList ++ a ++ '/' :: c.component.name) ∧
    HasLib d src abi c.component.name content ∧
    c.hashes = [("SHA-256".toList, hexText (sha256 (content.take maxNativeLibHashBytes)))]

theorem describes (hd : IsTree d) (hnodup : files.Nodup)
    (hfiles : ∀ a, a ∈ files ↔ ∃ b, HasLib d src a name b) (hne : files ≠ []) :
    Describes sha256 d src (newNativeLibComponent name (files.insertionSort (· ≤ ·))
      (repDigest sha256 d src name (files.insertionSort (· ≤ ·)))) := by
  have hsorted := sortedLT_insertionSort hnodup
  have hmem : ∀ a, a ∈ files.insertionSort (· ≤ ·) ↔ ∃ b, HasLib d src a name b := fun a => by
    rw [List.mem_insertionSort, hfiles]
  have hempty : ∀ a ∈ files.insertionSort (· ≤ ·), a ≠ [] := by
    rintro a ha rfl
    obtain ⟨b, hb⟩ := (hmem []).mp ha
    exact hd.named _ (hd.isDir_iff.mp hb.dir) (by simp)
  cases hcons : files.insertionSort (· ≤ ·) with
  | nil => exact absurd (List.length_eq_zero_iff.mp (by rw [← List.length_insertionSort (· ≤ ·), hcons]; rfl)) hne
  | cons abi abis =>
    rw [hcons] at hsorted hmem hempty
    obtain ⟨content, hcontent⟩ := (hmem abi).mp List.mem_cons_self
    refine ⟨abi, abis, content, hsorted, hmem, ?_, hcontent, ?_⟩
    · change ((abi :: abis).filter (· ≠ [])).map _ = _
      rw [List.filter_eq_self.mpr fun a ha => decide_eq_true (hempty a ha)]
      rfl
    · rw [newNativeLibComponent, repDigest_cons hcontent.file, if_pos (hexText_ne_nil _)]

/-- One component for each library, in the order of their names. -/
theorem native_libs_inventoried (sha256 : Bytes → Vector UInt8 32) (hd : IsTree d) (o : NameOrder) :
    ((enumerateNativeLibs sha256 d src o).map fun c => c.component.name).SortedLT ∧
      (∀ name, name ∈ ((enumerateNativeLibs sha256 d src o).map fun c => c.component.name) ↔
        ∃ abi content, HasLib d src abi name content) ∧
      ∀ c ∈ enumerateNativeLibs sha256 d src o, Describes sha256 d src c := by
  have hnames : (enumerateNativeLibs sha256 d src o).map (fun c => c.component.name) =
      (Distinct.firsts id ((soFiles d src).map fst)).insertionSort (· ≤ ·) := by
    rw [enumerateNativeLibs_eq, nativeLibNames, List.map_map, List.map_map]
    exact List.map_id _
  have hmem : ∀ {name : Text}, name ∈ Distinct.firsts id ((soFiles d src).map fst) ↔
      ∃ abi content, HasLib d src abi name content := fun {name} => by
    refine Distinct.mem_firsts_self.trans (List.mem_map.trans ⟨?_, ?_⟩)
    · rintro ⟨⟨name, abi⟩, hso, rfl⟩
      exact ⟨abi, hd.mem_soFiles.mp hso⟩
    · rintro ⟨abi, hlib⟩
      exact ⟨(name, abi), hd.mem_soFiles.mpr hlib, rfl⟩
  refine ⟨?_, fun name => ?_, fun c hc => ?_⟩
  · rw [hnames]
    exact sortedLT_insertionSort (Distinct.nodup_firsts_self _)
  · rw [hnames, List.mem_insertionSort, hmem]
  · rw [enumerateNativeLibs_eq, nativeLibNames, List.map_map] at hc
    obtain ⟨name, hname, rfl⟩ := List.mem_map.mp hc
    obtain ⟨abi, hlib⟩ := hmem.mp (List.mem_insertionSort (· ≤ ·) |>.mp hname)
    have hfiles : ∀ a, a ∈ ((soFiles d src).filter (·.1 = name)).map snd ↔
        ∃ b, HasLib d src a name b := fun a => by
      rw [← hd.mem_soFiles]
      simp
    have hnodup : (((soFiles d src).filter (·.1 = name)).map Prod.snd).Nodup := by
      refine (hd.nodup_soFiles.filter _).map_on fun x hx y hy hxy => Prod.ext ?_ hxy
      exact (of_decide_eq_true (List.mem_filter.mp hx).2).trans
        (of_decide_eq_true (List.mem_filter.mp hy).2).symm
    exact describes hd hnodup hfiles (List.ne_nil_of_mem ((hfiles abi).mpr hlib))

def shipped (content : Bytes) : Disk :=
  [(["lib".toList], none), (["lib".toList, "x86".toList], none),
    (["lib".toList, "x86".toList, "a.so".toList], some content)]

theorem enumerate_shipped (sha256 : Bytes → Vector UInt8 32) (content : Bytes) (o : NameOrder) :
    enumerateNativeLibs sha256 (shipped content) [] o =
      [newNativeLibComponent "a.so".toList ["x86".toList]
        (hexText (sha256 (content.take maxNativeLibHashBytes)))] := by
  have hnames : nativeLibNames (shipped content) [] = [("a.so".toList, ["x86".toList])] := rfl
  have hread : (shipped content).read (soPath [] "x86".toList "a.so".toList) = some content := rfl
  rw [enumerateNativeLibs_eq, hnames, List.map_singleton, repDigest_cons hread]

theorem one_lib_inventoried : IsTree (shipped [0x7f]) ∧ ∀ sha256 o,
    ∀ c ∈ enumerateNativeLibs sha256 (shipped [0x7f]) [] o, Describes sha256 (shipped [0x7f]) [] c := by
  have htree : IsTree (shipped [0x7f]) := ⟨by decide, by decide⟩
  exact ⟨htree, fun sha256 o => (native_libs_inventoried sha256 htree o).2.2⟩

def oversized (last : UInt8) : Bytes := List.replicate maxNativeLibHashBytes 0 ++ [last]

/-- Two files that differ in their last byte have one entry, so it is not the hash of each of them. -/
theorem last_byte_not_hashed : oversized 1 ≠ oversized 2 ∧ ∀ sha256 o,
    enumerateNativeLibs sha256 (shipped (oversized 1)) [] o =
      enumerateNativeLibs sha256 (shipped (oversized 2)) [] o ∧
    (hexText (sha256 (oversized 1)) ≠ hexText (sha256 (oversized 2)) → ∃ last,
      ∃ c ∈ enumerateNativeLibs sha256 (shipped (oversized last)) [] o,
        c.hashes ≠ [("SHA-256".toList, hexText (sha256 (oversized last)))]) := by
  have htake : ∀ last, (oversized last).take maxNativeLibHashBytes =
      List.replicate maxNativeLibHashBytes 0 := fun last => List.take_left' List.length_replicate
  refine ⟨fun h => ?_, fun sha256 o => ⟨?_, fun hne => ?_⟩⟩
  · exact absurd (List.append_cancel_left h) (by decide)
  · rw [enumerate_shipped, enumerate_shipped, htake, htake]
  · by_contra hall
    have hentry : ∀ last, hexText (sha256 (List.replicate maxNativeLibHashBytes 0)) =
        hexText (sha256 (oversized last)) := fun last => by
      by_contra hentry
      refine hall ⟨last, _, by rw [enumerate_shipped]; exact List.mem_singleton_self _, ?_⟩
      rw [newNativeLibComponent, if_pos (hexText_ne_nil _), htake]
      simpa using hentry
    exact hne ((hentry 1).symm.trans (hentry 2))

end Morf.Sbom.NativeLibs
