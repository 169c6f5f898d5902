import Morf.Detect.Names

/-! What one edit of a list of patterns leaves of another: when the result of the second, made from
the list before the first, is the result of making both. -/

namespace Morf.Detect

open Morf.Lib
open List Option

def first (name : String) (ps : List Pattern) : Option Pattern := ps.find? (·.name = name)

namespace PatternEdit

def after (e : PatternEdit) (ps : List Pattern) : List Pattern := (e.modify ps).toOption.getD ps

inductive Rewrites : PatternEdit → String → (Pattern → Pattern) → Prop
  | update : Rewrites (.update name p) name fun _ => p
  | enable : Rewrites (.enable name enabled) name fun p => { p with enabled }

inductive Changes : PatternEdit → List Pattern → List Pattern → Prop
  | add : p.name ∉ names ps → Changes (.add p) ps (ps ++ [p])
  | delete : name ∈ names ps → Changes (.delete name) ps (ps.filter (·.name ≠ name))
  | rewrite : Rewrites e name f → replaceFirst name f ps = some ps' → Changes e ps ps'

/-- There is nothing for the call to change: the name it adds is taken, the pattern it names is
missing or already as it should be. -/
def Settled (ps : List Pattern) : PatternEdit → Prop
  | .add p => p.name ∈ names ps
  | .delete name => name ∉ names ps
  | .update name p => ∀ x, first name ps = some x → x = p
  | .enable name enabled => ∀ x, first name ps = some x → x.enabled = enabled

/-- The second call rewrites, to the same effect, the pattern that the first one has rewritten. -/
def Overwritten (ps : List Pattern) : PatternEdit → PatternEdit → Prop
  | .update name p, .update name' _ => name' = name ∧ p.name = name
  | .update name p, .enable name' _ => name' = name ∧ p.name = name ∧
    ∀ x, first name ps = some x → { p with enabled := x.enabled } = x
  | .enable name _, .update name' _ | .enable name _, .enable name' _ => name' = name
  | _, _ => False

def Absorbed (ps : List Pattern) (a b : PatternEdit) : Prop :=
  Settled (b.after ps) a ∨ Settled ps a ∨ Overwritten ps a b

end PatternEdit

theorem mem_names : name ∈ names ps ↔ ∃ p ∈ ps, p.name = name := List.mem_map

theorem replaceFirst_eq_none : replaceFirst name f ps = none ↔ name ∉ names ps := by
  induction ps with
  | nil => simp [replaceFirst, names]
  | cons p ps ih =>
    rw [replaceFirst]
    split
    · rename_i hp
      simp [names, hp]
    · rename_i hp
      rw [map_eq_none_iff, ih, names, names, map_cons, mem_cons, not_or,
        and_iff_right (Ne.symm hp)]

theorem replaceFirst_cons_self (hp : p.name = name) :
    replaceFirst name f (p :: ps) = some (f p :: ps) := if_pos hp

theorem replaceFirst_cons_ne (hp : p.name ≠ name) :
    replaceFirst name f (p :: ps) = (replaceFirst name f ps).map (p :: ·) := if_neg hp

theorem replaceFirst_before (hbefore : ∀ p ∈ before, p.name ≠ name) (qs : List Pattern) :
    replaceFirst name f (before ++ qs) = (replaceFirst name f qs).map (before ++ ·) := by
  induction before with
  | nil => simp
  | cons p before ih =>
    rw [forall_mem_cons] at hbefore
    rw [cons_append, replaceFirst_cons_ne hbefore.1, ih hbefore.2, Option.map_map]
    rfl

theorem replaceFirst_getD_before (hbefore : ∀ p ∈ before, p.name ≠ name) (qs : List Pattern) :
    (replaceFirst name f (before ++ qs)).getD (before ++ qs) =
      before ++ (replaceFirst name f qs).getD qs := by
  rw [replaceFirst_before hbefore]
  cases replaceFirst name f qs <;> rfl

theorem replaceFirst_getD_cons_ne (hp : p.name ≠ name) :
    (replaceFirst name f (p :: ps)).getD (p :: ps) = p :: (replaceFirst name f ps).getD ps :=
  replaceFirst_getD_before (forall_mem_singleton.mpr hp) ps

theorem replaceFirst_append (h : replaceFirst name f ps = some ps') (qs : List Pattern) :
    replaceFirst name f (ps ++ qs) = some (ps' ++ qs) := by
  obtain ⟨before, x, after, rfl, hbefore, hx, rfl⟩ := replaceFirst_spec h
  rw [append_assoc, replaceFirst_before hbefore, cons_append, replaceFirst_cons_self hx]
  simp

theorem first_before (hbefore : ∀ p ∈ before, p.name ≠ name) (qs : List Pattern) :
    first name (before ++ qs) = first name qs := by
  rw [first, find?_append, find?_eq_none.mpr (by simpa using hbefore), none_or, first]

theorem first_split {after : List Pattern} (hbefore : ∀ p ∈ before, p.name ≠ name)
    (hx : x.name = name) : first name (before ++ x :: after) = some x := by
  rw [first_before hbefore, first, find?_cons_of_pos (by simpa using hx)]

theorem first_eq_none : first name ps = none ↔ name ∉ names ps := by
  rw [first, find?_eq_none, mem_names]
  simp

theorem replaceFirst_getD_eq_self :
    (replaceFirst name f ps).getD ps = ps ↔ ∀ x, first name ps = some x → f x = x := by
  cases h : replaceFirst name f ps with
  | none =>
    have hfirst : first name ps = none := first_eq_none.mpr (replaceFirst_eq_none.mp h)
    simp [hfirst]
  | some ps' =>
    obtain ⟨before, x, after, rfl, hbefore, hx, rfl⟩ := replaceFirst_spec h
    rw [first_split hbefore hx]
    simp

theorem length_replaceFirst (name : String) (f : Pattern → Pattern) (ps : List Pattern) :
    ((replaceFirst name f ps).getD ps).length = ps.length := by
  cases h : replaceFirst name f ps with
  | none => rfl
  | some ps' =>
    obtain ⟨before, x, after, rfl, -, -, rfl⟩ := replaceFirst_spec h
    simp

namespace PatternEdit

variable {e : PatternEdit}

theorem after_of_ok (h : e.modify ps = .ok ps') : e.after ps = ps' := by
  rw [after, h]
  rfl

theorem after_add (p : Pattern) :
    (add p).after ps = if p.name ∈ names ps then ps else ps ++ [p] := by
  have hany : (ps.any (·.name = p.name)) = decide (p.name ∈ names ps) := by
    simp [names, any_eq]
  rw [after, modify, hany]
  split <;> simp [reject, *] <;> rfl

theorem after_delete (name : String) : (delete name).after ps = ps.filter (·.name ≠ name) := by
  rw [after, modify]
  by_cases hkept : (ps.filter (·.name ≠ name)).length = ps.length
  · have hself : ps.filter (·.name ≠ name) = ps := filter_sublist.eq_of_length hkept
    rw [hself]
    simp [reject, Except.toOption]
  · simp only [hkept, decide_false, reject]
    rfl

theorem Rewrites.after_eq (h : Rewrites e name f) (ps : List Pattern) :
    e.after ps = (replaceFirst name f ps).getD ps := by
  cases h <;>
    rw [after, modify, replaced] <;>
    cases replaceFirst _ _ ps <;> rfl

theorem after_eq_self : e.after ps = ps ↔ e.Settled ps := by
  cases e with
  | add p =>
    rw [after_add, Settled]
    split <;> simp [*]
  | delete name =>
    rw [after_delete, Settled, filter_eq_self, mem_names]
    simp
  | update name p =>
    rw [Rewrites.update.after_eq, replaceFirst_getD_eq_self]
    exact forall₂_congr fun x _ => eq_comm
  | enable name enabled =>
    rw [Rewrites.enable.after_eq, replaceFirst_getD_eq_self]
    refine forall₂_congr fun x _ => ?_
    obtain ⟨xname, regex, confidence, flag⟩ := x
    simp [eq_comm]

theorem changes_of_ok (h : e.modify ps = .ok ps') : Changes e ps ps' := by
  cases e with
  | add p =>
    obtain ⟨u, hnew, h⟩ := except_bind_ok.mp h
    cases h
    rw [reject_ok, List.any_eq_false] at hnew
    refine .add fun hmem => ?_
    obtain ⟨q, hq, hname⟩ := mem_names.mp hmem
    exact hnew q hq (by simpa using hname)
  | delete name =>
    obtain ⟨u, hkept, h⟩ := except_bind_ok.mp h
    cases h
    rw [reject_ok, decide_eq_false_iff_not] at hkept
    refine .delete (by_contra fun hmem => hkept ?_)
    have hself : ps.filter (·.name ≠ name) = ps := by
      rw [← after_delete]
      exact after_eq_self.mpr hmem
    rw [hself]
  | update name p => exact .rewrite .update (replaced_ok.mp h)
  | enable name enabled => exact .rewrite .enable (replaced_ok.mp h)

theorem Changes.after_eq (h : Changes e ps ps') : e.after ps = ps' := by
  cases h with
  | add hp => rw [after_add, if_neg hp]
  | delete => exact after_delete _
  | rewrite hr hps' => rw [hr.after_eq, hps', getD_some]

theorem absorbed_of_add (hp : p.name ∉ names ps) (hb : Changes b ps pb)
    (h : b.after (ps ++ [p]) = pb) : Settled pb (.add p) := by
  have hlonger : b.after (ps ++ [p]) ≠ pb ++ [p] := by
    rw [h]
    exact fun heq => by simpa using congrArg List.length heq
  cases hb with
  | add hq =>
    rename_i q
    rw [after_add] at h
    split at h
    · rw [Settled, ← h, names]
      simp
    · exact absurd (congrArg List.length h) (by simp)
  | delete hname =>
    rename_i name
    refine absurd ?_ hlonger
    have hne : p.name ≠ name := fun heq => hp (heq ▸ hname)
    rw [after_delete, filter_append, filter_cons_of_pos (by simpa using hne), filter_nil]
  | rewrite hr hpb =>
    refine absurd ?_ hlonger
    rw [hr.after_eq, replaceFirst_append hpb, getD_some]

theorem absorbed_of_delete (hname : name ∈ names ps) (hb : Changes b ps pb)
    (h : b.after (ps.filter (·.name ≠ name)) = pb) : Settled pb (.delete name) := by
  have hshorter : (ps.filter (·.name ≠ name)).length < ps.length := by
    refine Nat.lt_of_le_of_ne (length_filter_le _ _) fun hlength => ?_
    have hself := filter_sublist.eq_of_length hlength
    rw [← after_delete] at hself
    exact after_eq_self.mp hself hname
  cases hb with
  | add hq =>
    rename_i q
    have := congrArg List.length h
    rw [after_add] at this
    split at this
    all_goals
      simp only [length_append, length_singleton] at this
      omega
  | delete hname' =>
    rename_i name'
    rw [after_delete, List.filter_filter] at h
    rw [Settled, ← h, mem_names]
    rintro ⟨p, hp, rfl⟩
    simp at hp
  | rewrite hr hpb =>
    have hlength : (b.after (ps.filter (·.name ≠ name))).length = (ps.filter (·.name ≠ name)).length := by
      rw [hr.after_eq, length_replaceFirst]
    obtain ⟨before, x, after, rfl, -, -, rfl⟩ := replaceFirst_spec hpb
    rw [h] at hlength
    simp only [length_append, length_cons] at hlength hshorter
    omega

theorem Rewrites.settled_iff (ha : Rewrites a name f) :
    a.Settled ps ↔ ∀ x, first name ps = some x → f x = x := by
  rw [← after_eq_self, ha.after_eq, replaceFirst_getD_eq_self]

theorem Rewrites.const_or_keeps (ha : Rewrites a name f) :
    (∃ p, f = fun _ => p) ∨ ∀ x, (f x).name = x.name := by
  cases ha with
  | update => exact .inl ⟨_, rfl⟩
  | enable => exact .inr fun _ => rfl

theorem fixed_of_rewrites_ne (hb : Rewrites b name' f') (hne : name ≠ name')
    (hpa : replaceFirst name f ps = some pa) (hpb : replaceFirst name' f' ps = some pb)
    (h : (replaceFirst name' f' pa).getD pa = pb) : ∀ x, first name ps = some x → f x = x := by
  induction ps generalizing pa pb with
  | nil => cases hpa
  | cons z zs ih =>
    by_cases hz : z.name = name
    · have hz' : z.name ≠ name' := fun heq => hne (hz.symm.trans heq)
      rw [replaceFirst_cons_self hz] at hpa
      rw [replaceFirst_cons_ne hz'] at hpb
      obtain ⟨qs, hqs, rfl⟩ := map_eq_some_iff.mp hpb
      cases hpa
      intro x hx
      obtain rfl : z = x := by simpa [first, hz] using hx
      by_cases hfz : (f z).name = name'
      · -- the second call takes the pattern that the first one has renamed
        rw [replaceFirst_cons_self hfz, getD_some, cons.injEq] at h
        obtain ⟨hz'', rfl⟩ := h
        rcases hb.const_or_keeps with ⟨p, rfl⟩ | hkeeps
        · obtain ⟨before, y, after, hzs, -, hy, hzs'⟩ := replaceFirst_spec hqs
          obtain rfl : y = p := by
            have := hzs.symm.trans hzs'
            simpa using this
          exact absurd (hz''.symm ▸ hy) hz'
        · exact absurd (hz'' ▸ (hkeeps (f z)).trans hfz) hz'
      · rw [replaceFirst_getD_cons_ne hfz] at h
        exact (cons.inj h).1
    · rw [replaceFirst_cons_ne hz] at hpa
      obtain ⟨pa', hpa', rfl⟩ := map_eq_some_iff.mp hpa
      have hfirst : first name (z :: zs) = first name zs := find?_cons_of_neg (by simpa using hz)
      rw [hfirst]
      by_cases hz' : z.name = name'
      · rw [replaceFirst_cons_self hz'] at hpb
        cases hpb
        rw [replaceFirst_cons_self hz', getD_some, cons.injEq] at h
        refine replaceFirst_getD_eq_self.mp ?_
        rw [hpa', getD_some, h.2]
      · rw [replaceFirst_cons_ne hz'] at hpb
        rw [replaceFirst_getD_cons_ne hz'] at h
        obtain ⟨pb', hpb', rfl⟩ := map_eq_some_iff.mp hpb
        exact ih hpa' hpb' (cons.inj h).2

theorem absorbed_of_rewrites_same (ha : Rewrites a name f) (hb : Rewrites b name f')
    (hpa : replaceFirst name f ps = some pa) (hpb : replaceFirst name f' ps = some pb)
    (h : (replaceFirst name f' pa).getD pa = pb) : Settled pb a ∨ Overwritten ps a b := by
  obtain ⟨before, x, rest, rfl, hbefore, hx, rfl⟩ := replaceFirst_spec hpa
  have hpb' : pb = before ++ f' x :: rest := by
    rw [replaceFirst_before hbefore, replaceFirst_cons_self hx] at hpb
    exact (some.inj hpb).symm
  subst hpb'
  rw [replaceFirst_getD_before hbefore, append_cancel_left_eq] at h
  by_cases hfx : (f x).name = name
  · rw [replaceFirst_cons_self hfx, getD_some, cons.injEq] at h
    have hfx' : f' (f x) = f' x := h.1
    refine .inr ?_
    cases ha with
    | update =>
      cases hb with
      | update => exact ⟨rfl, hfx⟩
      | enable =>
        refine ⟨rfl, hfx, fun y hy => ?_⟩
        obtain rfl : x = y := some.inj ((first_split hbefore hx).symm.trans hy)
        simp only [Pattern.mk.injEq, and_true] at hfx'
        obtain ⟨hname, hregex, hconfidence⟩ := hfx'
        simp only [hname, hregex, hconfidence]
    | enable => cases hb <;> rfl
  · cases ha with
    | enable => exact absurd hx hfx
    | update =>
      rename_i p
      have hp : p.name ≠ name := hfx
      -- the second call would have to take a later pattern of the name
      rw [replaceFirst_getD_cons_ne hp, cons.injEq] at h
      obtain ⟨hpx, hrest⟩ := h
      refine .inl fun y hy => ?_
      cases hb with
      | enable => exact absurd ((congrArg Pattern.name hpx).trans hx) hp
      | update =>
        have hpx : p = _ := hpx
        subst hpx
        rw [first_before hbefore, first, find?_cons_of_neg (by simpa using hp)] at hy
        exact (replaceFirst_getD_eq_self.mp hrest y hy).symm

theorem absorbed_of_rewrite (ha : Rewrites a name f) (hpa : replaceFirst name f ps = some pa)
    (hb : Changes b ps pb) (h : b.after pa = pb) :
    Settled pb a ∨ Settled ps a ∨ Overwritten ps a b := by
  cases hb with
  | add hq =>
    have hlength := length_replaceFirst name f ps
    rw [hpa, getD_some] at hlength
    rw [after_add] at h
    split at h
    · have := congrArg List.length h
      simp only [length_append, length_singleton] at this
      omega
    · refine .inr (.inl (after_eq_self.mp ?_))
      rw [ha.after_eq, hpa, getD_some]
      exact append_cancel_right h
  | delete hname' =>
    rename_i name'
    by_cases heq : name = name'
    · refine .inl (ha.settled_iff.mpr fun x hx => ?_)
      have hmem := mem_of_find?_eq_some hx
      have hname := find?_some hx
      simp [heq] at hmem hname
      exact absurd hname hmem.2
    · refine .inr (.inl (ha.settled_iff.mpr ?_))
      obtain ⟨before, x, rest, rfl, hbefore, hx, rfl⟩ := replaceFirst_spec hpa
      rw [first_split hbefore hx]
      rintro _ ⟨⟩
      have hx' : x.name ≠ name' := fun h => heq (hx.symm.trans h)
      rw [after_delete, filter_append, filter_append, append_cancel_left_eq,
        filter_cons_of_pos (a := x) (by simpa using hx'), filter_cons] at h
      split at h
      · exact (cons.inj h).1
      · exact absurd (congrArg List.length h) (by simp)
  | rewrite hr hpb =>
    rename_i name' f'
    rw [hr.after_eq] at h
    by_cases heq : name = name'
    · subst heq
      exact (absorbed_of_rewrites_same ha hr hpa hpb h).imp_right .inr
    · exact .inr (.inl (ha.settled_iff.mpr (fixed_of_rewrites_ne hr heq hpa hpb h)))

theorem after_rewritten (hb : Rewrites b name f') (hpa : replaceFirst name f ps = some pa)
    (hpb : replaceFirst name f' ps = some pb)
    (h : ∀ x, first name ps = some x → (f x).name = name ∧ f' (f x) = f' x) : b.after pa = pb := by
  obtain ⟨before, x, rest, rfl, hbefore, hx, rfl⟩ := replaceFirst_spec hpa
  obtain ⟨hname, hfx⟩ := h x (first_split hbefore hx)
  rw [replaceFirst_before hbefore, replaceFirst_cons_self hx] at hpb
  rw [hb.after_eq, replaceFirst_before hbefore, replaceFirst_cons_self hname, hfx]
  exact some.inj hpb

theorem after_overwritten (h : Overwritten ps a b) (ha : a.modify ps = .ok pa)
    (hb : b.modify ps = .ok pb) : b.after pa = pb := by
  have hname : ∀ name x, first name ps = some x → x.name = name := fun name x hx => by
    simpa using find?_some hx
  cases a with
  | add | delete => cases h
  | update name p =>
    cases b with
    | add | delete => cases h
    | update name' q =>
      obtain ⟨rfl, hp⟩ := h
      exact after_rewritten .update (replaced_ok.mp ha) (replaced_ok.mp hb) fun x _ => ⟨hp, rfl⟩
    | enable name' enabled =>
      obtain ⟨rfl, hp, hsame⟩ := h
      refine after_rewritten .enable (replaced_ok.mp ha) (replaced_ok.mp hb) fun x hx => ⟨hp, ?_⟩
      rw [← hsame x hx]
  | enable name enabled =>
    cases b with
    | add | delete => cases h
    | update name' q =>
      obtain rfl : name' = name := h
      exact after_rewritten .update (replaced_ok.mp ha) (replaced_ok.mp hb) fun x hx =>
        ⟨hname name' x hx, rfl⟩
    | enable name' enabled' =>
      obtain rfl : name' = name := h
      exact after_rewritten .enable (replaced_ok.mp ha) (replaced_ok.mp hb) fun x hx =>
        ⟨hname name' x hx, rfl⟩

theorem absorbed_iff (ha : a.modify ps = .ok pa) (hb : b.modify ps = .ok pb) :
    pb = b.after pa ∨ pb = a.after pb ↔ Absorbed ps a b := by
  have hca := changes_of_ok ha
  have hcb := changes_of_ok hb
  rw [Absorbed, hcb.after_eq]
  constructor
  · rintro (h | h)
    · cases hca with
      | add hp => exact .inl (absorbed_of_add hp hcb h.symm)
      | delete hname => exact .inl (absorbed_of_delete hname hcb h.symm)
      | rewrite hr hpa => exact absorbed_of_rewrite hr hpa hcb h.symm
    · exact .inl (after_eq_self.mp h.symm)
  · rintro (h | h | h)
    · exact .inr (after_eq_self.mpr h).symm
    · have hpa : pa = ps := hca.after_eq.symm.trans (after_eq_self.mpr h)
      rw [hpa, hcb.after_eq]
      exact .inl rfl
    · exact .inl (after_overwritten h ha hb).symm

end PatternEdit

end Morf.Detect
