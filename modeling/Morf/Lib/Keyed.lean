import Mathlib.Data.List.Nodup

/-! Lists with a key for each member, and maps from keys to the places of the members. -/

namespace Morf.Lib.Keyed

open List Function Option

variable {α β κ : Type} [DecidableEq κ] {key : α → κ} {l : List α}

def change (key : α → κ) (k : κ) (f : α → α) (l : List α) : List α :=
  l.map fun x => if key x = k then f x else x

theorem map_change {g : α → β} (hf : ∀ x, g (f x) = g x) (l : List α) :
    (change key k f l).map g = l.map g := by
  rw [change, List.map_map]
  refine map_congr_left fun x _ => ?_
  rw [comp_apply]
  split
  · exact hf x
  · rfl

omit [DecidableEq κ] in
theorem nodup_concat (hl : (l.map key).Nodup) (hnew : key new ∉ l.map key) :
    ((l ++ [new]).map key).Nodup := by
  rw [map_append, nodup_append]
  refine ⟨hl, nodup_singleton _, fun a ha b hb hab => hnew ?_⟩
  rw [← mem_singleton.mp hb, ← hab]
  exact ha

omit [DecidableEq κ] in
theorem key_eq_iff (hl : (l.map key).Nodup) {i j : Nat} (hi : i < l.length) (hj : j < l.length) :
    key l[i] = key l[j] ↔ i = j := by
  refine ⟨fun h => ?_, by rintro rfl; rfl⟩
  have hget : (l.map key)[i]? = (l.map key)[j]? := by simp [hi, hj, h]
  exact (getElem?_inj (by simpa using hi) hl).mp hget

def Points (key : α → κ) (places : κ → Option Nat) (l : List α) : Prop :=
  ∀ k, places k = l.findIdx? fun x => key x = k

namespace Points

theorem nil : Points key (fun _ => none) [] := fun _ => rfl

theorem isSome_iff (h : Points key places l) : (places k).isSome = true ↔ k ∈ l.map key := by
  simp [h k, findIdx?_isSome]

theorem eq_none_iff (h : Points key places l) : places k = none ↔ k ∉ l.map key := by
  rw [← h.isSome_iff, not_isSome_iff_eq_none]

theorem eq_some (h : Points key places l) (hi : places k = some i) :
    ∃ hlt : i < l.length, key l[i] = k := by
  rw [h k, findIdx?_eq_some_iff_getElem] at hi
  exact ⟨hi.1, of_decide_eq_true hi.2.1⟩

theorem of_getElem (h : Points key places l) (hl : (l.map key).Nodup) (hi : i < l.length) :
    places (key l[i]) = some i := by
  rw [h, findIdx?_eq_some_iff_getElem]
  refine ⟨hi, decide_eq_true rfl, fun j hj hkey => ?_⟩
  have := (key_eq_iff hl (Nat.lt_trans hj hi) hi).mp (of_decide_eq_true hkey)
  omega

theorem concat (h : Points key places l) (hnew : key new ∉ l.map key) :
    Points key (Function.update places (key new) (some l.length)) (l ++ [new]) := by
  intro k
  rw [findIdx?_append, ← h k]
  by_cases hk : k = key new
  · subst hk
    rw [update_self, h.eq_none_iff.mpr hnew]
    simp
  · have hlast : [new].findIdx? (fun y => key y = k) = none := by simp [Ne.symm hk]
    rw [update_of_ne hk, hlast, map_none, or_none]

theorem of_keys (h : Points key places l) (hkeys : l'.map key = l.map key) :
    Points key places l' := by
  intro k
  have hidx : ∀ l : List α, (l.findIdx? fun x => key x = k) = (l.map key).findIdx? fun y => y = k :=
    fun l => by rw [findIdx?_map]; rfl
  rw [h k, hidx l, hidx l', hkeys]

theorem modify_eq (h : Points key places l) (hl : (l.map key).Nodup) (hi : places k = some i) :
    l.modify i f = change key k f l := by
  obtain ⟨hlt, hk⟩ := h.eq_some hi
  refine ext_getElem (by simp [change]) fun j hj hj' => ?_
  have hjl : j < l.length := by simpa using hj
  simp only [change, getElem_modify, getElem_map]
  by_cases hij : i = j
  · subst hij
    rw [if_pos rfl, if_pos hk]
  · rw [if_neg hij, if_neg fun he => hij ((key_eq_iff hl hlt hjl).mp (hk.trans he.symm))]

theorem filterMap_eq (h : Points key places l) (hl : (l.map key).Nodup) :
    (l.map key).filterMap (fun k => (places k).bind (l[·]?)) = l := by
  have hfind : l.filterMap (fun x => (places (key x)).bind (l[·]?)) = l.filterMap some := by
    refine filterMap_congr fun x hx => ?_
    obtain ⟨i, hi, rfl⟩ := getElem_of_mem hx
    rw [h.of_getElem hl hi, bind_some, getElem?_eq_getElem hi]
  rw [filterMap_map]
  exact hfind.trans filterMap_some

end Points

theorem lookup_iff_mem {κ : Type} [BEq κ] [LawfulBEq κ] {l : List (κ × β)}
    (h : (l.map Prod.fst).Nodup) {k : κ} : l.lookup k = some v ↔ (k, v) ∈ l := by
  rw [lookup_eq_some_iff]
  constructor
  · rintro ⟨a, b, rfl, -⟩
    exact mem_append_right _ mem_cons_self
  · intro hmem
    obtain ⟨a, b, rfl⟩ := append_of_mem hmem
    refine ⟨a, b, rfl, fun p hp => bne_iff_ne.mpr ?_⟩
    rw [map_append, nodup_append] at h
    exact (h.2.2 p.1 (List.mem_map_of_mem hp) k mem_cons_self).symm

end Morf.Lib.Keyed
