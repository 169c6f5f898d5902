import Mathlib.Data.List.FinRange
import Morf.Lib.Assign
import Morf.Ios.MachO

/-! `flattenPlistMap` of `ios/plist.go`: a nested dictionary as one map with dotted keys. -/

namespace Morf.Ios

open Morf.Lib.Assign
open List

/-- `F` is the type of floats and `O` that of the values which are printed with `%v`. -/
inductive Scalar (F O : Type)
  | bool (b : Bool)
  | string (s : Bytes)
  | uint64 (n : UInt64)
  | int64 (n : Int64)
  | float64 (x : F)
  | other (x : O)
  deriving DecidableEq

/-- The entries of a dictionary stand in the order of the iteration over it. -/
inductive PlistValue (F O : Type)
  | dict (entries : List (Bytes × PlistValue F O))
  | array (items : List (PlistValue F O))
  | scalar (s : Scalar F O)

variable (formatFloat : F → Bytes) (sprint : O → Bytes)

def Scalar.text : Scalar F O → Bytes
  | .bool b => ascii (toString b)
  | .string s => s
  | .uint64 n => ascii (toString n)
  | .int64 n => ascii (toString n)
  | .float64 x => formatFloat x
  | .other x => sprint x

def joinKey (pre k : Bytes) : Bytes := if pre ≠ [] then pre ++ 46 :: k else k

def itemKey (key : Bytes) (i : Nat) : Bytes := key ++ 46 :: ascii (toString i)

mutual

def flattenPlistMap (pre : Bytes) :
    List (Bytes × PlistValue F O) → (Bytes → Option Bytes) → Bytes → Option Bytes
  | [], dst => dst
  | (k, v) :: m, dst => flattenPlistMap pre m (flattenPlistValue (joinKey pre k) v dst)

def flattenPlistValue (key : Bytes) : PlistValue F O → (Bytes → Option Bytes) → Bytes → Option Bytes
  | .dict m, dst => flattenPlistMap key m dst
  | .array items, dst => flattenPlistItems key 0 items dst
  | .scalar s, dst => assign dst (key, s.text formatFloat sprint)

def flattenPlistItems (key : Bytes) (i : Nat) :
    List (PlistValue F O) → (Bytes → Option Bytes) → Bytes → Option Bytes
  | [], dst => dst
  | e :: items, dst => flattenPlistItems key (i + 1) items (flattenPlistValue (itemKey key i) e dst)

end

def flattened (m : List (Bytes × PlistValue F O)) : Bytes → Option Bytes :=
  flattenPlistMap formatFloat sprint [] m fun _ => none

inductive Step
  | key (k : Bytes)
  | item (i : Nat)
  deriving DecidableEq

def Step.join (pre : Bytes) : Step → Bytes
  | .key k => joinKey pre k
  | .item i => itemKey pre i

def dotted (path : List Step) : Bytes := path.foldl Step.join []

abbrev Leaves (F O : Type) := List (List Step × Scalar F O)

def Leaves.below (step : Step) (ls : Leaves F O) : Leaves F O := ls.map fun l => (step :: l.1, l.2)

mutual

def leaves : PlistValue F O → Leaves F O
  | .dict m => leavesIn m
  | .array items => leavesAt 0 items
  | .scalar s => [([], s)]

def leavesIn : List (Bytes × PlistValue F O) → Leaves F O
  | [] => []
  | (k, v) :: m => (leaves v).below (.key k) ++ leavesIn m

def leavesAt (i : Nat) : List (PlistValue F O) → Leaves F O
  | [] => []
  | e :: items => (leaves e).below (.item i) ++ leavesAt (i + 1) items

end

/-- What is assigned for a leaf. -/
def leafEntry (pre : Bytes) (l : List Step × Scalar F O) : Bytes × Bytes :=
  (l.1.foldl Step.join pre, l.2.text formatFloat sprint)

theorem map_below (pre : Bytes) (step : Step) (ls : Leaves F O) :
    (ls.below step).map (leafEntry formatFloat sprint pre) =
      ls.map (leafEntry formatFloat sprint (step.join pre)) := by
  rw [Leaves.below, map_map]
  rfl

mutual

theorem flattenPlistMap_eq (pre : Bytes) (dst : Bytes → Option Bytes) :
    ∀ m : List (Bytes × PlistValue F O), flattenPlistMap formatFloat sprint pre m dst =
      ((leavesIn m).map (leafEntry formatFloat sprint pre)).foldl assign dst
  | [] => by rw [flattenPlistMap, leavesIn, map_nil, foldl_nil]
  | (k, v) :: m => by
    rw [flattenPlistMap, flattenPlistMap_eq pre _ m, flattenPlistValue_eq _ dst v, leavesIn,
      map_append, foldl_append, map_below]
    rfl

theorem flattenPlistValue_eq (key : Bytes) (dst : Bytes → Option Bytes) :
    ∀ v : PlistValue F O, flattenPlistValue formatFloat sprint key v dst =
      ((leaves v).map (leafEntry formatFloat sprint key)).foldl assign dst
  | .dict m => by rw [flattenPlistValue, flattenPlistMap_eq key dst m, leaves]
  | .array items => by rw [flattenPlistValue, flattenPlistItems_eq key 0 dst items, leaves]
  | .scalar s => by
    rw [flattenPlistValue, leaves]
    rfl

theorem flattenPlistItems_eq (key : Bytes) (i : Nat) (dst : Bytes → Option Bytes) :
    ∀ items : List (PlistValue F O), flattenPlistItems formatFloat sprint key i items dst =
      ((leavesAt i items).map (leafEntry formatFloat sprint key)).foldl assign dst
  | [] => by rw [flattenPlistItems, leavesAt, map_nil, foldl_nil]
  | e :: items => by
    rw [flattenPlistItems, flattenPlistItems_eq key (i + 1) _ items, flattenPlistValue_eq _ dst e,
      leavesAt, map_append, foldl_append, map_below]
    rfl

end

theorem flattened_eq (m : List (Bytes × PlistValue F O)) : flattened formatFloat sprint m =
    assigned ((leaves (.dict m)).map (leafEntry formatFloat sprint [])) := by
  rw [flattened, flattenPlistMap_eq, leaves, assigned]

theorem leavesIn_eq (m : List (Bytes × PlistValue F O)) :
    leavesIn m = m.flatMap fun e => (leaves e.2).below (.key e.1) := by
  induction m with
  | nil => rw [leavesIn, flatMap_nil]
  | cons e m ih => rw [leavesIn, ih, flatMap_cons]

theorem leavesAt_append (i : Nat) (a b : List (PlistValue F O)) :
    leavesAt i (a ++ b) = leavesAt i a ++ leavesAt (i + a.length) b := by
  induction a generalizing i with
  | nil => rw [leavesAt, nil_append, nil_append, length_nil, Nat.add_zero]
  | cons e a ih =>
    rw [cons_append, leavesAt, leavesAt, ih, append_assoc, length_cons,
      Nat.add_right_comm, Nat.add_assoc]

/-- Other orders of the iterations over the dictionary and over those in it. -/
inductive Reorders : PlistValue F O → PlistValue F O → Prop
  | perm {m m' : List (Bytes × PlistValue F O)} : m.Perm m' → Reorders (.dict m) (.dict m')
  | entry {v w : PlistValue F O} (a b : List (Bytes × PlistValue F O)) (k : Bytes) :
    Reorders v w → Reorders (.dict (a ++ (k, v) :: b)) (.dict (a ++ (k, w) :: b))
  | item {v w : PlistValue F O} (a b : List (PlistValue F O)) :
    Reorders v w → Reorders (.array (a ++ v :: b)) (.array (a ++ w :: b))
  | trans {u v w : PlistValue F O} : Reorders u v → Reorders v w → Reorders u w

theorem Reorders.leaves (h : Reorders v w) : (leaves v).Perm (leaves w) := by
  induction h with
  | perm h =>
    rw [Ios.leaves, Ios.leaves, leavesIn_eq, leavesIn_eq]
    exact h.flatMap_right _
  | entry a b k _ ih =>
    rw [Ios.leaves, Ios.leaves, leavesIn_eq, leavesIn_eq, flatMap_append, flatMap_append,
      flatMap_cons, flatMap_cons]
    exact ((ih.map _).append_right _).append_left _
  | item a b _ ih =>
    rw [Ios.leaves, Ios.leaves, leavesAt_append, leavesAt_append, leavesAt, leavesAt]
    exact ((ih.map _).append_right _).append_left _
  | trans _ _ ih ih' => exact ih.trans ih'

/-- The map has one entry for each leaf, which holds its text. -/
def OneEach (ls : Leaves F O) (flat : Bytes → Option Bytes) : Prop :=
  ∃ name : Fin ls.length → Bytes, name.Injective ∧
    (∀ i, flat (name i) = some (ls[i].2.text formatFloat sprint)) ∧
    ∀ k t, flat k = some t → ∃ i, name i = k

section Keys

variable {ls : Leaves F O}

theorem keys_leafEntry (ls : Leaves F O) :
    (ls.map (leafEntry formatFloat sprint [])).map Prod.fst = ls.map fun l => dotted l.1 :=
  map_map

theorem agree_of_nodup (h : (ls.map fun l => dotted l.1).Nodup) :
    Agree (ls.map (leafEntry formatFloat sprint [])) := by
  intro p hp q hq hkey
  rw [← keys_leafEntry formatFloat sprint] at h
  rw [inj_on_of_nodup_map h hp hq hkey]

theorem oneEach_iff : OneEach formatFloat sprint ls
    (assigned (ls.map (leafEntry formatFloat sprint []))) ↔ (ls.map fun l => dotted l.1).Nodup := by
  constructor
  · rintro ⟨name, hinj, htext, -⟩
    -- as many different keys as leaves are among the keys of the leaves
    have hsub : ofFn name ⊆ ls.map fun l => dotted l.1 := by
      intro k hk
      obtain ⟨i, rfl⟩ := mem_ofFn.mp hk
      rw [← keys_leafEntry formatFloat sprint]
      exact mem_map_of_mem (f := Prod.fst) (mem_of_assigned (htext i))
    have hnodup := nodup_ofFn.mpr hinj
    have hperm := (subperm_of_subset hnodup hsub).perm_of_length_le (by simp)
    exact hperm.nodup_iff.mp hnodup
  · intro h
    refine ⟨fun i => dotted ls[i].1, fun i j hij => Fin.ext ?_, fun i => ?_, fun k t hk => ?_⟩
    · refine (getElem?_inj (by simp) h).mp ?_
      simpa using hij
    · exact (agree_of_nodup formatFloat sprint h).assigned_iff.mpr
        (mem_map_of_mem (getElem_mem i.2))
    · obtain ⟨l, hl, heq⟩ := mem_map.mp (mem_of_assigned hk)
      obtain ⟨i, hi, rfl⟩ := getElem_of_mem hl
      exact ⟨⟨i, hi⟩, congrArg Prod.fst heq⟩

end Keys

/-- The settings of a dictionary are all kept, in whatever order it is visited, exactly if their
dotted keys are different. -/
theorem flattened_keeps_iff (m : List (Bytes × PlistValue F O)) :
    (∀ m', Reorders (.dict m) (.dict m') →
      flattened formatFloat sprint m' = flattened formatFloat sprint m ∧
        OneEach formatFloat sprint (leaves (.dict m')) (flattened formatFloat sprint m')) ↔
      ((leaves (.dict m)).map fun l => dotted l.1).Nodup := by
  simp only [flattened_eq, oneEach_iff]
  refine ⟨fun h => (h m (.perm (List.Perm.refl m))).2, fun h m' hm => ?_⟩
  have hperm := hm.leaves
  have h' := (hperm.map fun l => dotted l.1).nodup_iff.mp h
  refine ⟨?_, h'⟩
  funext k
  refine Option.ext fun t => ?_
  rw [(agree_of_nodup formatFloat sprint h').assigned_iff,
    (agree_of_nodup formatFloat sprint h).assigned_iff, (hperm.map _).mem_iff]

/-- The exceptions for the domain `x.com`, and a dictionary under the first part of its name. -/
def exceptionDomains : List (Bytes × PlistValue Unit Unit) :=
  [(ascii "x.com", .dict [(ascii "NSExceptionAllowsInsecureHTTPLoads", .scalar (.bool true))]),
    (ascii "x", .dict [(ascii "com",
      .dict [(ascii "NSExceptionAllowsInsecureHTTPLoads", .scalar (.bool false))])])]

/-- Two settings share a key, and the order of the iteration decides which of them is kept. -/
theorem domain_exception_overwritten :
    (leaves (.dict exceptionDomains)).length = 2 ∧
      Reorders (.dict exceptionDomains) (.dict exceptionDomains.reverse) ∧
      flattened (fun _ => []) (fun _ => []) exceptionDomains
          (ascii "x.com.NSExceptionAllowsInsecureHTTPLoads") = some (ascii "false") ∧
      flattened (fun _ => []) (fun _ => []) exceptionDomains.reverse
          (ascii "x.com.NSExceptionAllowsInsecureHTTPLoads") = some (ascii "true") :=
  ⟨by decide +kernel, .perm (reverse_perm _).symm, by decide +kernel, by decide +kernel⟩

end Morf.Ios
