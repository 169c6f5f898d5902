import Morf.Lib.Places
import Morf.Lib.Text

/-! Searches for an expression that starts with a fixed text, as functions on the text that
follows: what they read, and how they pass over a stretch in which nothing can start. -/

namespace Morf.Lib

open List Function

namespace Regex

def spans (r : Regex) (c : Cursor) : List (List Char) := (r.run 1 c).map Prod.snd

variable {c : Cursor}

theorem spans_seq (r s : Regex) :
    (seq r s).spans c = (r.spans c).flatMap fun w => (s.spans (c.skip w)).map (w ++ ·) := by
  simp only [spans, run_seq, map_snd_after, s.map_snd_run (1 + r.groups) 1]

@[simp] theorem spans_group (r : Regex) : (group r).spans c = r.spans c := by
  rw [spans, run, map_map]
  exact r.map_snd_run 2 1 c

theorem spans_lit (w : List Char) : (lit w).spans c = if w <+: c.rest then [w] else [] := by
  rw [spans, run_lit]
  split <;> rfl

theorem spans_lit_seq (w : List Char) (r : Regex) : (seq (lit w) r).spans c =
    if w <+: c.rest then (r.spans (c.skip w)).map (w ++ ·) else [] := by
  rw [spans_seq, spans_lit]
  split <;> simp

section Classes

variable {ranges : List (Char × Char)}

theorem spans_lazy_set : (star false (set negated ranges)).spans c =
    (c.rest.takeWhile (inSet negated ranges)).inits := by
  have key : ∀ n c, c.rest.length < n → loop ((set negated ranges).run 1) false n c =
      (c.rest.takeWhile (inSet negated ranges)).inits.map fun w => ([], w) := by
    intro n
    induction n with
    | zero => intro c h; omega
    | succ n ih =>
      intro c h
      cases hc : c.rest with
      | nil => simp [loop, run, hc]
      | cons x xs =>
        have hlen : (c.skip [x]).rest.length < n := by simp [hc] at h ⊢; omega
        simp only [loop, run_set hc]
        by_cases hx : inSet negated ranges x
        · simp [hx, after, ih _ hlen, hc, comp_def]
        · simp [hx]
  rw [spans, run, key _ c (by omega), map_map]
  exact map_id _

theorem inSet_not_char : inSet true [(x, x)] y = true ↔ y ≠ x := by
  have h : inSet true [(x, x)] y = !inSet false [(x, x)] y := by simp [inSet]
  rw [h, Bool.not_eq_true', ← Bool.not_eq_true, inSet_char]

theorem spans_gap (r : Regex) (prev : Option Char) (x : Char) (xs : List Char) :
    (seq (star false any) r).spans ⟨prev, x :: xs⟩ = r.spans ⟨prev, x :: xs⟩ ++
      if x = '\n' then [] else ((seq (star false any) r).spans ⟨some x, xs⟩).map (x :: ·) := by
  rw [spans_seq, spans_seq, any, spans_lazy_set, spans_lazy_set]
  by_cases hx : x = '\n'
  · rw [if_pos hx, takeWhile_cons_of_neg fun h => inSet_not_char.mp h hx]
    simp
  · rw [if_neg hx, takeWhile_cons_of_pos (inSet_not_char.mpr hx), inits_cons,
      flatMap_cons, flatMap_map, map_flatMap]
    congr 1
    · simp
    · refine flatMap_congr fun w _ => ?_
      have hskip : (⟨prev, x :: xs⟩ : Cursor).skip (x :: w) = (⟨some x, xs⟩ : Cursor).skip w := by
        cases w <;> simp [Cursor.skip, getLast?_cons]
      rw [hskip, map_map]
      rfl

def plus (r : Regex) : Regex := .seq r (.star true r)

theorem spans_plus : (plus (set negated ranges)).spans c =
    ((c.rest.takeWhile (inSet negated ranges)).inits.drop 1).reverse := by
  obtain ⟨prev, rest⟩ := c
  cases rest with
  | nil => simp [plus, spans, run]
  | cons x xs =>
    have hset : (set negated ranges).run 1 ⟨prev, x :: xs⟩ =
      if inSet negated ranges x then [([], [x])] else [] := run_set rfl
    rw [plus, spans, run_seq, hset]
    by_cases hx : inSet negated ranges x
    · simp [hx, after, run_star_set, comp_def]
    · simp [hx]

theorem inits_drop_reverse {v : List Char} (hv : v ≠ []) :
    ∃ shorter, (v.inits.drop 1).reverse = v :: shorter ∧
      ∀ w ∈ shorter, ∃ x u, v = w ++ x :: u := by
  obtain ⟨u, x, rfl⟩ := (eq_nil_or_concat v).resolve_left hv
  have hinits : ((u ++ [x]).inits.drop 1).reverse = (u ++ [x]) :: (u.inits.drop 1).reverse := by
    rw [inits_append]
    cases u <;> simp
  refine ⟨_, by rw [concat_eq_append, hinits], fun w hw => ?_⟩
  obtain ⟨z, rfl⟩ := (mem_inits _ _).mp (mem_of_mem_drop (mem_reverse.mp hw))
  cases z with
  | nil => exact ⟨x, [], by simp⟩
  | cons y z => exact ⟨y, z ++ [x], by simp⟩

theorem head_spans_plus : ((plus (set negated ranges)).spans c).head? =
    if c.rest.takeWhile (inSet negated ranges) = [] then none
    else some (c.rest.takeWhile (inSet negated ranges)) := by
  rw [spans_plus]
  split
  · rename_i hnil
    simp [hnil]
  · rename_i hne
    obtain ⟨shorter, heq, -⟩ := inits_drop_reverse hne
    rw [heq, head?_cons]

theorem spans_skip_shorter {r : Regex}
    (hr : ∀ c x xs, c.rest = x :: xs → inSet negated ranges x = true → r.spans c = [])
    (hv : c.rest.takeWhile (inSet negated ranges) = w ++ x :: u) : r.spans (c.skip w) = [] := by
  obtain ⟨t, ht⟩ := List.takeWhile_prefix (inSet negated ranges) (l := c.rest)
  have hx : inSet negated ranges x = true :=
    mem_takeWhile_imp (hv ▸ mem_append_right w mem_cons_self)
  have hrest : (c.skip w).rest = x :: (u ++ t) := by
    rw [Cursor.skip_rest, ← ht, hv]
    simp
  exact hr _ x _ hrest hx

theorem spans_plus_seq (hr : ∀ c x xs, c.rest = x :: xs →
      inSet negated ranges x = true → r.spans c = []) :
    (seq (plus (set negated ranges)) r).spans c =
      if c.rest.takeWhile (inSet negated ranges) = [] then [] else
        (r.spans (c.skip (c.rest.takeWhile (inSet negated ranges)))).map
          (c.rest.takeWhile (inSet negated ranges) ++ ·) := by
  rw [spans_seq, spans_plus]
  split
  · rename_i hnil
    simp [hnil]
  · rename_i hne
    obtain ⟨shorter, heq, hshorter⟩ := inits_drop_reverse hne
    rw [heq, flatMap_cons, append_right_eq_self, flatMap_eq_nil_iff]
    intro w hw
    obtain ⟨x, u, hv⟩ := hshorter w hw
    rw [spans_skip_shorter hr hv, map_nil]

theorem inits_reverse (v : List Char) : ∃ shorter, v.inits.reverse = v :: shorter ∧
    ∀ w ∈ shorter, ∃ x u, v = w ++ x :: u := by
  rcases eq_nil_or_concat v with rfl | ⟨u, x, rfl⟩
  · exact ⟨[], rfl, nofun⟩
  · refine ⟨u.inits.reverse, by simp [inits_append], fun w hw => ?_⟩
    obtain ⟨z, rfl⟩ := (mem_inits _ _).mp (mem_reverse.mp hw)
    cases z with
    | nil => exact ⟨x, [], by simp⟩
    | cons y z => exact ⟨y, z ++ [x], by simp⟩

theorem spans_star_seq (hr : ∀ c x xs, c.rest = x :: xs →
      inSet negated ranges x = true → r.spans c = []) :
    (seq (star true (set negated ranges)) r).spans c =
      (r.spans (c.skip (c.rest.takeWhile (inSet negated ranges)))).map
        (c.rest.takeWhile (inSet negated ranges) ++ ·) := by
  obtain ⟨shorter, heq, hshorter⟩ := inits_reverse (c.rest.takeWhile (inSet negated ranges))
  have hstar : (star true (set negated ranges)).spans c =
      (c.rest.takeWhile (inSet negated ranges)).inits.reverse := by
    rw [spans, run_star_set, map_map]
    exact map_id _
  rw [spans_seq, hstar, heq, flatMap_cons, append_right_eq_self, flatMap_eq_nil_iff]
  intro w hw
  obtain ⟨x, u, hv⟩ := hshorter w hw
  rw [spans_skip_shorter hr hv, map_nil]

end Classes

theorem spans_gap_append (prev : Option Char) (t : List Char)
    (hr : ∀ c x xs, c.rest = x :: xs → x ∈ w → r.spans c = []) (hn : '\n' ∉ w) :
    (seq (star false any) r).spans ⟨prev, w ++ t⟩ =
      ((seq (star false any) r).spans (Cursor.skip ⟨prev, w ++ t⟩ w)).map (w ++ ·) := by
  induction w generalizing prev with
  | nil => simp
  | cons x w ih =>
    have hskip : (⟨prev, x :: (w ++ t)⟩ : Cursor).skip (x :: w) = (⟨some x, w ++ t⟩ : Cursor).skip w :=
      (Cursor.skip_skip ⟨prev, x :: (w ++ t)⟩ [x] w).symm
    rw [cons_append, spans_gap, hr ⟨prev, x :: (w ++ t)⟩ x _ rfl mem_cons_self,
      if_neg fun h => hn (by simp [h]),
      ih (some x) (fun c y ys hc hy => hr c y ys hc (mem_cons_of_mem x hy))
        fun h => hn (mem_cons_of_mem x h), hskip, nil_append, map_map]
    rfl

end Regex

namespace Search

variable {β : Type}

def past (w : List Char) (read : List Char → Option β) (t : List Char) : Option β :=
  if w <+: t then read (t.drop w.length) else none

def along (read : List Char → Option β) : List Char → Option β
  | [] => read []
  | x :: xs => (read (x :: xs)).or (if x = '\n' then none else along read xs)

def search (read : List Char → Option β) : List Char → Option β
  | [] => read []
  | x :: xs => (read (x :: xs)).or (search read xs)

def Reads (cap : List Char → β) (r : Regex) (read : List Char → Option β) : Prop :=
  ∀ c, (r.spans c).head?.map cap = read c.rest ∧
    ∀ s ∈ (r.spans c).head?, ∀ w, cap (w ++ s) = cap s

section Reads

variable {read : List Char → Option β}

theorem Reads.lit (h : Reads cap r read) (w : List Char) :
    Reads cap (.seq (.lit w) r) (past w read) := by
  intro c
  rw [Regex.spans_lit_seq, past]
  split
  · obtain ⟨hread, hcap⟩ := h (c.skip w)
    rw [Cursor.skip_rest] at hread
    rw [head?_map, ← hread]
    cases hs : (r.spans (c.skip w)).head? with
    | none => simp
    | some s =>
      have hs' := hcap s hs
      refine ⟨by simp [hs'], ?_⟩
      rintro _ ⟨⟩ v
      simp [hs', ← append_assoc]
  · simp

theorem Reads.along (h : Reads cap r read) :
    Reads cap (.seq (.star false .any) r) (along read) := by
  intro c
  obtain ⟨prev, rest⟩ := c
  induction rest generalizing prev with
  | nil => simpa [Regex.spans_seq, Regex.any, Regex.spans_lazy_set, Search.along] using h ⟨prev, []⟩
  | cons x xs ih =>
    obtain ⟨hread, hcap⟩ := h ⟨prev, x :: xs⟩
    obtain ⟨hread', hcap'⟩ := ih (some x)
    rw [Regex.spans_gap, head?_append, Search.along, ← hread]
    cases hs : (r.spans ⟨prev, x :: xs⟩).head? with
    | some s => simpa using hcap s hs
    | none =>
      by_cases hx : x = '\n'
      · simp [hx]
      · rw [if_neg hx, if_neg hx, head?_map, ← hread']
        cases hs' : ((Regex.seq (.star false .any) r).spans ⟨some x, xs⟩).head? with
        | none => simp
        | some s =>
          have hcap := hcap' s hs'
          refine ⟨by simpa using hcap [x], ?_⟩
          rintro _ ⟨⟩ w
          calc cap (w ++ x :: s) = cap ((w ++ [x]) ++ s) := by simp
            _ = cap s := hcap _
            _ = cap (x :: s) := (hcap [x]).symm

theorem Reads.find (h : Reads cap r read) (c : Cursor) :
    (r.find c).map (fun m => cap m.span) = search read c.rest := by
  have hhead : ∀ c, (r.run 1 c).head?.map (fun f => cap f.2) = read c.rest := fun c => by
    rw [← (h c).1, Regex.spans, head?_map, Option.map_map]
    rfl
  obtain ⟨prev, rest⟩ := c
  rw [Regex.find]
  induction rest generalizing prev with
  | nil =>
    rw [Regex.findFrom, search, ← hhead ⟨prev, []⟩]
    cases (r.run 1 ⟨prev, []⟩).head? <;> rfl
  | cons x xs ih =>
    rw [Regex.findFrom, search, ← hhead ⟨prev, x :: xs⟩, ← ih (some x)]
    cases (r.run 1 ⟨prev, x :: xs⟩).head? with
    | some f => rfl
    | none => simp [comp_def]

end Reads

def LineEnd (t : List Char) : Prop := ∀ x ∈ t.head?, x = '\n'

theorem lineEnd_nil : LineEnd [] := nofun

theorem lineEnd_newline (t : List Char) : LineEnd ('\n' :: t) := by
  rintro _ ⟨⟩
  rfl

section Passing

variable {o : List Char} {read : List Char → Option β}

theorem prefix_append_cons (hy : y ∉ o) : o <+: w ++ y :: t ↔ o <+: w := by
  refine ⟨fun h => ?_, fun h => h.trans (List.prefix_append _ _)⟩
  rcases Nat.lt_or_ge w.length o.length with hlt | hge
  · have hwy : w ++ [y] <+: o :=
      prefix_of_prefix_length_le ⟨t, by simp⟩ h (by simpa using Nat.succ_le_of_lt hlt)
    exact absurd (hwy.subset (by simp)) hy
  · exact prefix_of_prefix_length_le h (List.prefix_append _ _) hge

theorem prefix_append_lineEnd (hn : '\n' ∉ o) (ht : LineEnd t) : o <+: w ++ t ↔ o <+: w := by
  cases t with
  | nil => rw [append_nil]
  | cons z t =>
    obtain rfl := ht z rfl
    exact prefix_append_cons hn

theorem past_append (t : List Char) : past o read (o ++ t) = read t := by
  rw [past, if_pos (List.prefix_append _ _), drop_left]

theorem past_eq_none (h : ¬ o <+: t) : past o read t = none := if_neg h

theorem search_cons (h : ¬ o <+: x :: t) :
    search (past o read) (x :: t) = search (past o read) t := by
  rw [search, past_eq_none h, Option.none_or]

theorem search_append (hx : x ∈ o) (hw : x ∉ w)
    (hreach : ∀ v, v <:+ w → o <+: v ++ t → o <+: v) :
    search (past o read) (w ++ t) = search (past o read) t := by
  induction w with
  | nil => rfl
  | cons z w ih =>
    have hno : ¬ o <+: z :: (w ++ t) := fun h =>
      hw ((hreach (z :: w) (suffix_refl _) h).subset hx)
    rw [cons_append, search_cons hno]
    exact ih (fun h => hw (mem_cons_of_mem z h)) fun v hv =>
      hreach v (hv.trans (suffix_cons z w))

theorem search_segment (hx : x ∈ o) (hy : y ∉ o) (hw : x ∉ w) :
    search (past o read) (w ++ y :: t) = search (past o read) t := by
  have hne : o ≠ [] := ne_nil_of_mem hx
  rw [search_append hx hw fun v _ h => (prefix_append_cons hy).mp h]
  refine search_cons fun h => hne ?_
  exact prefix_nil.mp ((prefix_append_cons (w := []) hy).mp h)

theorem search_lineEnd (hx : x ∈ o) (hn : '\n' ∉ o) (hw : x ∉ w) (ht : LineEnd t) :
    search (past o read) (w ++ t) = search (past o read) t :=
  search_append hx hw fun _ _ h => (prefix_append_lineEnd hn ht).mp h

theorem search_const (hne : o ≠ []) (hy : y ∉ o)
    (h : ∀ a v, w = a ++ (o ++ v) → read (v ++ y :: u) = R) :
    search (past o read) (w ++ y :: u) =
      (if o <:+: w then R else none).or (search (past o read) u) := by
  induction w with
  | nil =>
    have hno : ¬ o <+: y :: u := fun h =>
      hne (prefix_nil.mp ((prefix_append_cons (w := []) hy).mp h))
    rw [nil_append, search_cons hno, if_neg fun h => hne (infix_nil.mp h), Option.none_or]
  | cons z w ih =>
    have ih := ih fun a v hw => h (z :: a) v (by rw [hw]; rfl)
    rw [cons_append, search, ih]
    by_cases ho : o <+: z :: w
    · obtain ⟨v, hv⟩ := id ho
      have hread : past o read (z :: (w ++ y :: u)) = R := by
        rw [← cons_append, ← hv, append_assoc, past_append]
        exact h [] v hv.symm
      rw [hread, if_pos ho.isInfix]
      cases R <;> simp
    · have hno : ¬ o <+: z :: (w ++ y :: u) := fun h => ho ((prefix_append_cons (w := z :: w) hy).mp h)
      have hinfix : o <:+: z :: w ↔ o <:+: w := by rw [infix_cons_iff, or_iff_right ho]
      rw [past_eq_none hno, Option.none_or, if_congr hinfix rfl rfl]

theorem search_some (h : search (past o read) t = some v) : o <:+: t := by
  induction t with
  | nil =>
    rw [search, past] at h
    split at h
    · exact IsPrefix.isInfix ‹_›
    · cases h
  | cons z t ih =>
    by_cases ho : o <+: z :: t
    · exact ho.isInfix
    · rw [search_cons ho] at h
      exact (ih h).trans (suffix_cons z t).isInfix

theorem search_lacks_head (hw : x ∉ w) :
    search (past (x :: o) read) (w ++ t) = search (past (x :: o) read) t := by
  induction w with
  | nil => rfl
  | cons z w ih =>
    have hz : ¬ x :: o <+: z :: (w ++ t) := fun h => hw (by simp [(cons_prefix_cons.mp h).1])
    rw [cons_append, search_cons hz]
    exact ih fun h => hw (mem_cons_of_mem z h)

theorem along_append (hw : x ∉ w) (hn : '\n' ∉ w) :
    along (past (x :: o) read) (w ++ t) = along (past (x :: o) read) t := by
  induction w with
  | nil => rfl
  | cons z w ih =>
    have hz : ¬ x :: o <+: z :: (w ++ t) := fun h => hw (by simp [(cons_prefix_cons.mp h).1])
    rw [cons_append, along, past_eq_none hz, if_neg fun h => hn (by simp [h]),
      Option.none_or]
    exact ih (fun h => hw (mem_cons_of_mem z h)) fun h => hn (mem_cons_of_mem z h)

theorem along_of_some (h : read t = some v) : along read t = some v := by
  cases t with
  | nil => exact h
  | cons z t => rw [along, h, Option.some_or]

theorem along_lacks (hx : x ∈ o) (hn : '\n' ∉ o) (hw : x ∉ w) (ht : LineEnd t) :
    along (past o read) (w ++ t) = none := by
  have hno : ∀ v, v <:+ w → ¬ o <+: v ++ t := fun v hv h =>
    hw (hv.subset (((prefix_append_lineEnd hn ht).mp h).subset hx))
  induction w with
  | nil =>
    have hnil : ¬ o <+: t := hno [] (suffix_refl _)
    cases t with
    | nil => exact past_eq_none hnil
    | cons z t => rw [nil_append, along, past_eq_none hnil, if_pos (ht z rfl), Option.or_none]
  | cons z w ih =>
    have hz : ¬ o <+: z :: (w ++ t) := hno (z :: w) (suffix_refl _)
    rw [cons_append, along, past_eq_none hz, Option.none_or, ih (fun h => hw (mem_cons_of_mem z h))
        fun v hv => hno v (hv.trans (suffix_cons z w)), ite_self]

theorem along_some (h : along (past o read) t = some v) : o <:+: t := by
  have hhere : ∀ {t}, past o read t = some v → o <:+: t := fun {t} h => by
    rw [past] at h
    split at h
    · exact IsPrefix.isInfix ‹_›
    · cases h
  induction t with
  | nil => exact hhere h
  | cons z t ih =>
    rw [along, Option.or_eq_some_iff] at h
    rcases h with h | ⟨-, h⟩
    · exact hhere h
    · split at h
      · cases h
      · exact (ih h).trans (suffix_cons z t).isInfix

end Passing

section Infixes

variable {o : List Char}

theorem contains_iff : Text.contains o t = true ↔ o <:+: t := by
  induction t with
  | nil => rw [Text.contains, List.isPrefixOf_iff_prefix, prefix_nil, infix_nil]
  | cons z t ih => rw [Text.contains, Bool.or_eq_true, List.isPrefixOf_iff_prefix, ih, infix_cons_iff]

theorem infix_append_cons (hne : o ≠ []) (hy : y ∉ o) : o <:+: w ++ y :: t ↔ o <:+: w ∨ o <:+: t := by
  induction w with
  | nil =>
    have hno : ¬ o <+: y :: t := fun h =>
      hne (prefix_nil.mp ((prefix_append_cons (w := []) hy).mp h))
    rw [nil_append, infix_cons_iff, infix_nil, or_iff_right hno, or_iff_right hne]
  | cons z w ih =>
    rw [cons_append, infix_cons_iff, infix_cons_iff, ih, or_assoc, ← cons_append,
      prefix_append_cons hy]

theorem infix_lacks_head (hw : x ∉ w) : x :: o <:+: w ++ t ↔ x :: o <:+: t := by
  induction w with
  | nil => rfl
  | cons z w ih =>
    obtain ⟨hz, hw⟩ : x ≠ z ∧ x ∉ w := by simpa using hw
    rw [cons_append, infix_cons_iff, ih hw, or_iff_right fun h => hz (cons_prefix_cons.mp h).1]

end Infixes

end Search

end Morf.Lib
