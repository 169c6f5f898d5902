import Mathlib.Data.List.Basic

/-! Places inside a value.  A traversal splits a value into a shape and the list of what stands at
its places, and changes the latter.  Two values of one shape that have the same images at their
places are mapped to the same value. -/

namespace Morf.Lib

open List List

structure Traversal (S A : Type) where
  Shape : Type
  shape : S → Shape
  foci : S → List A
  map : (A → A) → S → S
  length_foci : ∀ {v w}, shape v = shape w → (foci v).length = (foci w).length
  ext : ∀ {v w}, shape v = shape w → foci v = foci w → v = w
  shape_map : ∀ f v, shape (map f v) = shape v
  foci_map : ∀ f v, foci (map f v) = (foci v).map f

namespace Traversal

variable (t : Traversal S A) (u : Traversal A B)

theorem map_eq_map (hs : t.shape v = t.shape w) (hf : (t.foci v).map f = (t.foci w).map g) :
    t.map f v = t.map g w := by
  apply t.ext
  · rw [t.shape_map, t.shape_map, hs]
  · rw [t.foci_map, t.foci_map, hf]

theorem shape_eq_of_map_const (h : t.map (fun _ => a) v = t.map (fun _ => a) w) :
    t.shape v = t.shape w := by
  rw [← t.shape_map (fun _ => a) v, h, t.shape_map]

theorem map_const_eq_of_shape (a : A) (h : t.shape v = t.shape w) :
    t.map (fun _ => a) v = t.map (fun _ => a) w := by
  apply t.map_eq_map h
  rw [map_const', map_const', t.length_foci h]

theorem length_flatMap_foci {xs ys : List A} (hs : xs.map u.shape = ys.map u.shape) :
    (xs.flatMap u.foci).length = (ys.flatMap u.foci).length := by
  induction xs generalizing ys with
  | nil =>
    cases ys with
    | nil => rfl
    | cons y ys => cases hs
  | cons x xs ih =>
    cases ys with
    | nil => cases hs
    | cons y ys =>
      obtain ⟨hxy, hrest⟩ := cons.inj hs
      rw [flatMap_cons, flatMap_cons, length_append, length_append,
        u.length_foci hxy, ih hrest]

theorem eq_of_flatMap_foci {ys : List A} (hs : xs.map u.shape = ys.map u.shape)
    (hf : xs.flatMap u.foci = ys.flatMap u.foci) : xs = ys := by
  induction xs generalizing ys with
  | nil =>
    cases ys with
    | nil => rfl
    | cons y ys => cases hs
  | cons x xs ih =>
    cases ys with
    | nil => cases hs
    | cons y ys =>
      obtain ⟨hxy, hrest⟩ := cons.inj hs
      obtain ⟨hhead, htail⟩ := append_inj hf (u.length_foci hxy)
      rw [u.ext hxy hhead, ih hrest htail]

def comp : Traversal S B where
  Shape := t.Shape × List u.Shape
  shape v := (t.shape v, (t.foci v).map u.shape)
  foci v := (t.foci v).flatMap u.foci
  map f := t.map (u.map f)
  length_foci h := u.length_flatMap_foci (Prod.mk.inj h).2
  ext hs hf := t.ext (Prod.mk.inj hs).1 (u.eq_of_flatMap_foci (Prod.mk.inj hs).2 hf)
  shape_map f v := by
    rw [t.shape_map, t.foci_map, map_map]
    exact congrArg _ (map_congr_left fun a _ => u.shape_map f a)
  foci_map f v := by
    rw [t.foci_map, flatMap_map, map_flatMap]
    exact flatMap_congr fun a _ => u.foci_map f a

theorem map_congr (h : ∀ a ∈ t.foci v, f a = g a) : t.map f v = t.map g v :=
  t.map_eq_map rfl (map_congr_left h)

def self (A : Type) : Traversal A A where
  Shape := Unit
  shape _ := ()
  foci a := [a]
  map f := f
  length_foci _ := rfl
  ext _ h := (cons.inj h).1
  shape_map _ _ := rfl
  foci_map _ _ := rfl

def items (A : Type) : Traversal (List A) A where
  Shape := Nat
  shape := length
  foci xs := xs
  map := List.map
  length_foci h := h
  ext _ h := h
  shape_map _ _ := List.length_map _
  foci_map _ _ := rfl

def values (K A : Type) (p : K → Bool) : Traversal (List (K × A)) A where
  Shape := List (K × Option A)
  shape := List.map fun m => (m.1, if p m.1 then none else some m.2)
  foci := List.filterMap fun m => if p m.1 then some m.2 else none
  map f := List.map fun m => if p m.1 then (m.1, f m.2) else m
  length_foci {ms ns} h := by
    induction ms generalizing ns with
    | nil =>
      cases ns with
      | nil => rfl
      | cons n ns => cases h
    | cons m ms ih =>
      cases ns with
      | nil => cases h
      | cons n ns =>
        obtain ⟨hmn, hrest⟩ := cons.inj h
        have hkey : m.1 = n.1 := (Prod.mk.inj hmn).1
        cases hp : p n.1 with
        | true => simp [hkey, hp, ih hrest]
        | false => simp [hkey, hp, ih hrest]
  ext {ms ns} hs hf := by
    induction ms generalizing ns with
    | nil =>
      cases ns with
      | nil => rfl
      | cons n ns => cases hs
    | cons m ms ih =>
      cases ns with
      | nil => cases hs
      | cons n ns =>
        obtain ⟨hmn, hrest⟩ := cons.inj hs
        obtain ⟨hkey, hval⟩ := Prod.mk.inj hmn
        cases hp : p n.1 with
        | true =>
          simp only [List.filterMap_cons, hkey, hp, if_true, List.cons.injEq] at hf
          rw [Prod.ext hkey hf.1, ih hrest hf.2]
        | false =>
          simp only [List.filterMap_cons, hkey, hp, Bool.false_eq_true, if_false] at hf hval
          rw [Prod.ext hkey (Option.some.inj hval), ih hrest hf]
  shape_map f ms := by
    rw [List.map_map]
    refine List.map_congr_left fun m _ => ?_
    cases hp : p m.1 <;> simp [hp]
  foci_map f ms := by
    rw [filterMap_map, map_filterMap]
    refine filterMap_congr fun m _ => ?_
    cases hp : p m.1 <;> simp [hp]

section Values

variable {K : Type}

theorem values_map_cons_of_pos (h : p m.1 = true) :
    (values K A p).map f (m :: ms) = (m.1, f m.2) :: (values K A p).map f ms := by
  simp [values, h]

theorem values_map_cons_of_neg (h : p m.1 = false) :
    (values K A p).map f (m :: ms) = m :: (values K A p).map f ms := by
  simp [values, h]

theorem values_foci_cons_of_pos (h : p m.1 = true) :
    (values K A p).foci (m :: ms) = m.2 :: (values K A p).foci ms := by
  simp [values, h]

theorem values_foci_cons_of_neg (h : p m.1 = false) :
    (values K A p).foci (m :: ms) = (values K A p).foci ms := by
  simp [values, h]

end Values

/-- The places of what one constructor of a type holds. -/
def within {C : Type} (mk : C → S) (get : S → Option C) (hget : ∀ v c, get v = some c ↔ v = mk c)
    (t : Traversal C A) : Traversal S A where
  Shape := S ⊕ t.Shape
  shape v := (get v).elim (.inl v) fun c => .inr (t.shape c)
  foci v := (get v).elim [] t.foci
  map f v := (get v).elim v fun c => mk (t.map f c)
  length_foci {v w} h := by
    cases hv : get v <;> cases hw : get w <;> simp only [hv, hw, Option.elim] at h ⊢
    · cases h
    · cases h
    · exact t.length_foci (Sum.inr.inj h)
  ext {v w} hs hf := by
    cases hv : get v <;> cases hw : get w <;> simp only [hv, hw, Option.elim] at hs hf
    · exact Sum.inl.inj hs
    · cases hs
    · cases hs
    · rw [(hget v _).mp hv, (hget w _).mp hw, t.ext (Sum.inr.inj hs) hf]
  shape_map f v := by
    cases hv : get v with
    | none => simp only [hv, Option.elim]
    | some c => simp only [Option.elim, (hget _ _).mpr rfl, t.shape_map]
  foci_map f v := by
    cases hv : get v with
    | none => simp only [hv, Option.elim, map_nil]
    | some c => simp only [Option.elim, (hget _ _).mpr rfl, t.foci_map]

end Traversal

end Morf.Lib
