import Mathlib.Data.Char
import Mathlib.Data.List.Lex
import Morf.Lib.Json
import Morf.Lib.Text
import Morf.Lib.Traversal

/-! JSON values as Go holds them in variables of type `any`: an object is a map, which is written
with its keys in order, and a number is a `float64`. -/

namespace Morf.Lib.Json

open List Option

abbrev Members := List (List Char × Json)

/-- How a number is written that was read as a `float64`.  What cannot be read as one is none. -/
structure Numbers where
  canon : List Char → Option (List Char)
  scan_canon : ∀ {x y}, canon x = some y → scanNumber y = some (y, [])
  canon_canon : ∀ {x y}, canon x = some y → canon y = some y

/-- Numbers of which every literal is the shortest. -/
def Numbers.exact : Numbers where
  canon x := if scanNumber x = some (x, []) then some x else none
  scan_canon {x y} h := by
    split at h <;> cases h
    assumption
  canon_canon {x y} h := by
    split at h <;> cases h
    exact if_pos ‹_›

def put (k : List Char) (v : Json) : Members → Members
  | [] => [(k, v)]
  | (k', v') :: ms =>
    if k = k' then (k, v) :: ms
    else if k < k' then (k, v) :: (k', v') :: ms
    else (k', v') :: put k v ms

variable (N : Numbers)

mutual

def normalize : Json → Option Json
  | .null => some .null
  | .bool b => some (.bool b)
  | .number x => (N.canon x).map .number
  | .string s => some (.string s)
  | .array xs => (normalizeItems xs).map .array
  | .object ms => (normalizeMembers [] ms).map .object

def normalizeItems : List Json → Option (List Json)
  | [] => some []
  | x :: xs => do return (← normalize x) :: (← normalizeItems xs)

def normalizeMembers (map : Members) : Members → Option Members
  | [] => some map
  | (k, v) :: ms => do normalizeMembers (put k (← normalize v) map) ms

end

def unmarshal (text : List Char) : Option Json := (parse text).bind (normalize N)

def marshal (v : Json) : List Char := write .compact 0 v

def Sorted (ms : Members) : Prop := ms.Pairwise fun p q => p.1 < q.1

mutual

def Normal : Json → Prop
  | .null | .bool _ | .string _ => True
  | .number x => N.canon x = some x
  | .array xs => NormalItems xs
  | .object ms => Sorted ms ∧ NormalMembers ms

def NormalItems : List Json → Prop
  | [] => True
  | x :: xs => Normal x ∧ NormalItems xs

def NormalMembers : Members → Prop
  | [] => True
  | (_, v) :: ms => Normal v ∧ NormalMembers ms

end

section Maps

variable {N}

theorem mem_put (h : p ∈ put k v ms) : p = (k, v) ∨ p ∈ ms := by
  induction ms with
  | nil => exact .inl (mem_singleton.mp h)
  | cons m ms ih =>
    rw [put] at h
    split at h
    · exact (mem_cons.mp h).imp_right (mem_cons_of_mem m)
    · split at h
      · exact mem_cons.mp h
      · rcases mem_cons.mp h with rfl | h
        · exact .inr mem_cons_self
        · exact (ih h).imp_right (mem_cons_of_mem m)

theorem sorted_put (h : Sorted ms) : Sorted (put k v ms) := by
  induction ms with
  | nil => exact pairwise_singleton _ _
  | cons m ms ih =>
    obtain ⟨hm, hms⟩ := pairwise_cons.mp h
    rw [put]
    split
    · rename_i hk
      exact pairwise_cons.mpr ⟨fun p hp => hk ▸ hm p hp, hms⟩
    · rename_i hne
      split
      · rename_i hlt
        refine pairwise_cons.mpr ⟨fun p hp => ?_, h⟩
        rcases mem_cons.mp hp with rfl | hp
        · exact hlt
        · exact hlt.trans (hm p hp)
      · rename_i hlt
        refine pairwise_cons.mpr ⟨fun p hp => ?_, ih hms⟩
        rcases mem_put hp with rfl | hp
        · exact lt_of_le_of_ne (not_lt.mp hlt) (Ne.symm hne)
        · exact hm p hp

theorem put_last (h : ∀ p ∈ ms, p.1 < k) : put k v ms = ms ++ [(k, v)] := by
  induction ms with
  | nil => rfl
  | cons m ms ih =>
    have hm : m.1 < k := h m mem_cons_self
    rw [put, if_neg hm.ne', if_neg hm.asymm, ih fun p hp => h p (mem_cons_of_mem m hp)]
    rfl

theorem normal_put (hv : Normal N v) (h : NormalMembers N ms) : NormalMembers N (put k v ms) := by
  induction ms with
  | nil => exact ⟨hv, trivial⟩
  | cons m ms ih =>
    rw [put]
    split
    · exact ⟨hv, h.2⟩
    · split
      · exact ⟨hv, h⟩
      · exact ⟨h.1, ih h.2⟩

end Maps

mutual

theorem normal_of_normalize : (v : Json) → {w : Json} → normalize N v = some w → Normal N w
  | .null, w, h | .bool _, w, h | .string _, w, h => by
    cases h
    trivial
  | .number x, w, h => by
    obtain ⟨y, hy, rfl⟩ := map_eq_some_iff.mp h
    exact N.canon_canon hy
  | .array xs, w, h => by
    obtain ⟨ys, hys, rfl⟩ := map_eq_some_iff.mp h
    exact normal_of_normalizeItems xs hys
  | .object ms, w, h => by
    obtain ⟨ns, hns, rfl⟩ := map_eq_some_iff.mp h
    exact normal_of_normalizeMembers ms .nil trivial hns

theorem normal_of_normalizeItems : (xs : List Json) → {ys : List Json} →
    normalizeItems N xs = some ys → NormalItems N ys
  | [], ys, h => by
    cases h
    trivial
  | x :: xs, ys, h => by
    simp only [normalizeItems, Option.pure_def, bind_eq_bind, bind_eq_some_iff] at h
    obtain ⟨y, hy, zs, hzs, hys⟩ := h
    cases hys
    exact ⟨normal_of_normalize x hy, normal_of_normalizeItems xs hzs⟩

theorem normal_of_normalizeMembers : (ms : Members) → {map ns : Members} → Sorted map →
    NormalMembers N map → normalizeMembers N map ms = some ns → Sorted ns ∧ NormalMembers N ns
  | [], map, ns, hs, hn, h => by
    cases h
    exact ⟨hs, hn⟩
  | (k, v) :: ms, map, ns, hs, hn, h => by
    simp only [normalizeMembers, bind_eq_bind, bind_eq_some_iff] at h
    obtain ⟨w, hw, h⟩ := h
    exact normal_of_normalizeMembers ms (sorted_put hs) (normal_put (normal_of_normalize v hw) hn) h

end

mutual

theorem normalize_of_normal : (v : Json) → Normal N v → normalize N v = some v
  | .null, _ | .bool _, _ | .string _, _ => rfl
  | .number x, h => by
    rw [normalize, h]
    rfl
  | .array xs, h => by
    rw [normalize, normalizeItems_of_normal xs h]
    rfl
  | .object ms, h => by
    rw [normalize, normalizeMembers_of_normal ms [] h.1 h.2]
    rfl

theorem normalizeItems_of_normal : (xs : List Json) → NormalItems N xs →
    normalizeItems N xs = some xs
  | [], _ => rfl
  | x :: xs, h => by
    rw [normalizeItems, normalize_of_normal x h.1, normalizeItems_of_normal xs h.2]
    rfl

theorem normalizeMembers_of_normal : (ms map : Members) → Sorted (map ++ ms) →
    NormalMembers N ms → normalizeMembers N map ms = some (map ++ ms)
  | [], map, _, _ => by
    rw [normalizeMembers, append_nil]
  | (k, v) :: ms, map, hs, h => by
    have hlast : put k v map = map ++ [(k, v)] :=
      put_last fun p hp => (pairwise_append.mp hs).2.2 p hp (k, v) mem_cons_self
    rw [append_cons] at hs ⊢
    rw [normalizeMembers, normalize_of_normal v h.1, bind_eq_bind, bind_some, hlast]
    exact normalizeMembers_of_normal ms _ hs h.2

end

mutual

theorem literal_of_normal : (v : Json) → Normal N v → Literal v
  | .null, _ | .bool _, _ | .string _, _ => trivial
  | .number _, h => N.scan_canon h
  | .array xs, h => literalItems_of_normal xs h
  | .object ms, h => literalMembers_of_normal ms h.2

theorem literalItems_of_normal : (xs : List Json) → NormalItems N xs → LiteralItems xs
  | [], _ => trivial
  | x :: xs, h => ⟨literal_of_normal x h.1, literalItems_of_normal xs h.2⟩

theorem literalMembers_of_normal : (ms : Members) → NormalMembers N ms → LiteralMembers ms
  | [], _ => trivial
  | (_, v) :: ms, h => ⟨literal_of_normal v h.1, literalMembers_of_normal ms h.2⟩

end

variable {N}

theorem normal_of_unmarshal (h : unmarshal N text = some v) : Normal N v := by
  obtain ⟨w, -, hw⟩ := bind_eq_some_iff.mp h
  exact normal_of_normalize N w hw

open Traversal

theorem unmarshal_marshal (h : Normal N v) : unmarshal N (marshal v) = some v := by
  rw [unmarshal, marshal, parse_write .compact (literal_of_normal N v h), bind_some,
    normalize_of_normal N v h]

section Places

/-! A type assertion looks at one constructor; a value of another type is left as it is. -/

def onArray (f : List Json → List Json) : Json → Json
  | .array xs => .array (f xs)
  | v => v

def onObject (f : Members → Members) : Json → Json
  | .object ms => .object (f ms)
  | v => v

def onString (f : List Char → List Char) : Json → Json
  | .string s => .string (f s)
  | v => v

def adjust (k : List Char) (f : Json → Json) (m : Members) : Members :=
  match m.find? fun p => decide (p.1 = k) with
  | some p => put k (f p.2) m
  | none => m

def asArray : Json → Option (List Json)
  | .array xs => some xs
  | _ => none

def asObject : Json → Option Members
  | .object ms => some ms
  | _ => none

def asString : Json → Option (List Char)
  | .string s => some s
  | _ => none

def items : Traversal Json Json :=
  .within .array asArray (fun v c => by cases v <;> simp [asArray]) (.items Json)

def text : Traversal Json (List Char) :=
  .within .string asString (fun v c => by cases v <;> simp [asString]) (.self (List Char))

def members (p : List Char → Bool) : Traversal Json Json :=
  .within .object asObject (fun v c => by cases v <;> simp [asObject]) (.values (List Char) Json p)

def member (k : List Char) : Traversal Json Json := members fun k' => decide (k' = k)

variable {ms : Members}

theorem items_map (f : Json → Json) (v : Json) : items.map f v = onArray (List.map f) v := by
  cases v <;> rfl

theorem text_map (f : List Char → List Char) (v : Json) : text.map f v = onString f v := by
  cases v <;> rfl

theorem members_map (p : List Char → Bool) (f : Json → Json) (v : Json) :
    (members p).map f v = onObject (map (.values (List Char) Json p) f) v := by
  cases v <;> rfl

theorem values_map_of_lt (h : ∀ m ∈ ms, k < m.1) :
    map (.values (List Char) Json fun k' => decide (k' = k)) f ms = ms := by
  refine (map_congr_left fun m hm => ?_).trans (List.map_id ms)
  rw [if_neg]
  · rfl
  · simpa using (h m hm).ne'

theorem adjust_cons_of_ne (h : Sorted (m :: ms)) (hne : m.1 ≠ k) :
    adjust k f (m :: ms) = m :: adjust k f ms := by
  obtain ⟨hm, -⟩ := pairwise_cons.mp h
  rw [adjust, adjust, find?_cons_of_neg (by simpa using hne)]
  cases hfind : ms.find? fun p => decide (p.1 = k) with
  | none => rfl
  | some p =>
    have hlt : m.1 < k := by
      have hk : p.1 = k := by simpa using find?_some hfind
      exact hk ▸ hm p (mem_of_find?_eq_some hfind)
    dsimp only
    rw [put, if_neg hlt.ne', if_neg hlt.asymm]

theorem adjust_eq_map (h : Sorted ms) :
    adjust k f ms = map (.values (List Char) Json fun k' => decide (k' = k)) f ms := by
  induction ms with
  | nil => rfl
  | cons m ms ih =>
    obtain ⟨hm, hms⟩ := pairwise_cons.mp h
    by_cases hk : m.1 = k
    · have htail := values_map_of_lt (f := f) (k := k) fun p hp => hk ▸ hm p hp
      rw [adjust, find?_cons_of_pos (by simpa using hk)]
      dsimp only
      rw [put, if_pos hk.symm, values_map_cons_of_pos (by simpa using hk), htail, hk]
    · rw [adjust_cons_of_ne h hk, ih hms, values_map_cons_of_neg (by simpa using hk)]

theorem sorted_values (h : Sorted ms) :
    Sorted (map (.values (List Char) Json p) f ms) := by
  refine pairwise_map.mpr (h.imp fun {a b} hab => ?_)
  cases p a.1 <;> cases p b.1 <;> exact hab

theorem foldl_adjust_eq_map {ks : List (List Char)} (hks : ks.Nodup) (h : Sorted ms) :
    ks.foldl (fun m k => adjust k f m) ms =
      map (.values (List Char) Json fun k => decide (k ∈ ks)) f ms := by
  induction ks generalizing ms with
  | nil => exact ((map_congr_left fun m _ => by simp).trans (List.map_id ms)).symm
  | cons k ks ih =>
    obtain ⟨hk, hks⟩ := nodup_cons.mp hks
    rw [foldl_cons, adjust_eq_map h, ih hks (sorted_values h)]
    refine List.map_map.trans (map_congr_left fun m _ => ?_)
    by_cases hm : m.1 = k
    · simp [hm, hk]
    · simp [hm]

theorem normal_values (hv : NormalMembers N ms) (hf : ∀ w, Normal N w → Normal N (f w)) :
    NormalMembers N (map (.values (List Char) Json p) f ms) := by
  induction ms with
  | nil => trivial
  | cons m ms ih =>
    cases hp : p m.1 with
    | true =>
      rw [values_map_cons_of_pos hp]
      exact ⟨hf m.2 hv.1, ih hv.2⟩
    | false =>
      rw [values_map_cons_of_neg hp]
      exact ⟨hv.1, ih hv.2⟩

theorem normal_foci_members (hv : Normal N v) : ∀ w ∈ (members p).foci v, Normal N w := by
  cases v with
  | object ms =>
    have hms := hv.2
    clear hv
    induction ms with
    | nil => exact fun w hw => absurd hw not_mem_nil
    | cons m ms ih =>
      cases hp : p m.1 with
      | true =>
        intro w hw
        rcases mem_cons.mp ((values_foci_cons_of_pos hp) ▸ hw) with rfl | hw
        · exact hms.1
        · exact ih hms.2 w hw
      | false =>
        intro w hw
        exact ih hms.2 w ((values_foci_cons_of_neg hp) ▸ hw)
  | null | bool | number | string | array => exact fun w hw => absurd hw not_mem_nil

theorem normal_foci_items (hv : Normal N v) : ∀ w ∈ items.foci v, Normal N w := by
  cases v with
  | array xs =>
    induction xs with
    | nil => exact fun w hw => absurd hw not_mem_nil
    | cons x xs ih =>
      intro w hw
      rcases mem_cons.mp hw with rfl | hw
      · exact hv.1
      · exact ih hv.2 w hw
  | null | bool | number | string | object => exact fun w hw => absurd hw not_mem_nil

theorem normal_members (hv : Normal N v) (hf : ∀ w, Normal N w → Normal N (f w)) :
    Normal N ((members p).map f v) := by
  cases v with
  | object ms => exact ⟨sorted_values hv.1, normal_values hv.2 hf⟩
  | null | bool | number | string | array => exact hv

theorem normal_map (hxs : NormalItems N xs) (hf : ∀ w, Normal N w → Normal N (f w)) :
    NormalItems N (xs.map f) := by
  induction xs with
  | nil => trivial
  | cons x xs ih => exact ⟨hf x hxs.1, ih hxs.2⟩

theorem normal_items (hv : Normal N v) (hf : ∀ w, Normal N w → Normal N (f w)) :
    Normal N (items.map f v) := by
  cases v with
  | array xs => exact normal_map hv hf
  | null | bool | number | string | object => exact hv

theorem normal_text (f : List Char → List Char) (hv : Normal N v) : Normal N (text.map f v) := by
  cases v with
  | string s => trivial
  | null | bool | number | array | object => exact hv

end Places

end Morf.Lib.Json
