import Morf.Lib.Search

/-! Searches for all matches of an expression that only matches at the start of a line, as `(?m)^r`
does. -/

namespace Morf.Lib.Regex

open List

inductive Finds (r : Regex) : Cursor → List (List Char) → Prop
  | done {prev} (hnone : r.spans ⟨prev, []⟩ = []) : Finds r ⟨prev, []⟩ []
  | pass {prev x xs spans} (hnone : r.spans ⟨prev, x :: xs⟩ = []) (h : Finds r ⟨some x, xs⟩ spans) :
      Finds r ⟨prev, x :: xs⟩ spans
  | take {c span spans} (hspan : (r.spans c).head? = some span) (hne : span ≠ [])
      (h : Finds r (c.skip span) spans) : Finds r c (span :: spans)

section Finds

variable {r : Regex} {spans : List (List Char)}

theorem run_of_spans (h : r.spans c = []) : (r.run 1 c).head? = none := by
  rw [map_eq_nil_iff.mp h]
  rfl

theorem run_of_head_spans {span : List Char} (h : (r.spans c).head? = some span) :
    ∃ gs, (r.run 1 c).head? = some (gs, span) := by
  rw [spans, head?_map, Option.map_eq_some_iff] at h
  obtain ⟨f, hf, rfl⟩ := h
  exact ⟨f.1, hf⟩

theorem Finds.find_cases (h : Finds r c spans) :
    (r.find c = none ∧ spans = []) ∨
      ∃ m later, r.find c = some m ∧ m.span ≠ [] ∧ m.skipped ++ m.span <+: c.rest ∧
        spans = m.span :: later ∧ Finds r (c.skip (m.skipped ++ m.span)) later := by
  induction h with
  | done hnone =>
    refine .inl ⟨?_, rfl⟩
    rw [find, findFrom, run_of_spans hnone]
  | @pass prev x xs spans hnone h ih =>
    have hfind : r.find ⟨prev, x :: xs⟩ =
        (r.find ⟨some x, xs⟩).map fun m => { m with skipped := x :: m.skipped } := by
      rw [find, findFrom, run_of_spans hnone]
      rfl
    rcases ih with ⟨hfind', rfl⟩ | ⟨m, later, hfind', hne, hpre, rfl, hlater⟩
    · exact .inl ⟨by rw [hfind, hfind']; rfl, rfl⟩
    · refine .inr ⟨{ m with skipped := x :: m.skipped }, later, by rw [hfind, hfind']; rfl, hne, ?_,
        rfl, ?_⟩
      · simpa using hpre
      · have hskip : Cursor.skip ⟨prev, x :: xs⟩ (x :: (m.skipped ++ m.span)) =
            Cursor.skip ⟨some x, xs⟩ (m.skipped ++ m.span) :=
          (Cursor.skip_skip ⟨prev, x :: xs⟩ [x] _).symm
        exact hskip ▸ hlater
  | @take c span spans hspan hne h ih =>
    obtain ⟨gs, hrun⟩ := run_of_head_spans hspan
    have hfind : r.find c = some ⟨[], gs, span⟩ := by
      rw [find, findFrom.eq_def, hrun]
    exact .inr ⟨⟨[], gs, span⟩, spans, hfind, hne, r.run_prefix 1 c _ (mem_of_head? hrun), rfl, h⟩

theorem Finds.findAllFrom (h : Finds r c spans) (hn : c.rest.length < n) :
    (r.findAllFrom n ended c).map Match.span = spans := by
  induction n generalizing ended c spans with
  | zero => cases hn
  | succ n ih =>
    rw [Regex.findAllFrom]
    rcases h.find_cases with ⟨hfind, rfl⟩ | ⟨m, later, hfind, hne, hpre, rfl, hlater⟩
    · rw [hfind]
      rfl
    · have hpos : 0 < m.span.length := length_pos_iff.mpr hne
      have hlen : (c.skip (m.skipped ++ m.span)).rest.length < n := by
        have hle := hpre.length_le
        rw [Cursor.skip_rest, length_drop]
        rw [length_append] at hle ⊢
        omega
      rw [hfind]
      dsimp only
      rw [if_neg fun h => hne (append_eq_nil_iff.mp h).2, map_cons, ih hlater hlen]

end Finds

structure LineBound (r : Regex) : Prop where
  start : ∀ x rest, x ≠ '\n' → r.spans ⟨some x, rest⟩ = []
  nonempty : ∀ prev t, Search.LineEnd t → r.spans ⟨prev, t⟩ = []

theorem spans_lineStart (r : Regex) (c : Cursor) :
    (seq (anchor .lineStart) r).spans c = if c.prev.all (· == '\n') then r.spans c else [] := by
  rw [spans_seq]
  cases h : c.prev.all (· == '\n') <;> simp [spans, run, Anchor.holds, h]

theorem lineBound_lineStart (h : ∀ prev t, Search.LineEnd t → r.spans ⟨prev, t⟩ = []) :
    LineBound (seq (anchor .lineStart) r) where
  start x rest hx := by
    rw [spans_lineStart, if_neg (by simpa using hx)]
  nonempty prev t ht := by
    rw [spans_lineStart, h prev t ht, ite_self]

def followed (ls : List (List Char)) : List Char := ls.flatMap ('\n' :: ·)

theorem followed_cons (l : List Char) (ls : List (List Char)) :
    followed (l :: ls) = '\n' :: (l ++ followed ls) := rfl

theorem intercalate_cons (l : List Char) (ls : List (List Char)) :
    ['\n'].intercalate (l :: ls) = l ++ followed ls := by
  induction ls generalizing l with
  | nil => simp [followed, intercalate]
  | cons l' ls ih =>
    have hcons : ['\n'].intercalate (l :: l' :: ls) = l ++ '\n' :: ['\n'].intercalate (l' :: ls) := by
      simp [intercalate]
    rw [hcons, ih, followed_cons]

theorem infix_intercalate (h : l ∈ ls) : l <:+: ['\n'].intercalate ls := by
  cases ls with
  | nil => cases h
  | cons x xs =>
    rw [intercalate_cons]
    rcases mem_cons.mp h with rfl | h
    · exact (List.prefix_append _ _).isInfix
    · obtain ⟨a, b, rfl⟩ := append_of_mem h
      exact ⟨x ++ followed a ++ ['\n'], followed b, by simp [followed]⟩

theorem lineEnd_followed (ls : List (List Char)) : Search.LineEnd (followed ls) := by
  cases ls with
  | nil => exact Search.lineEnd_nil
  | cons l ls => exact Search.lineEnd_newline _

section Lines

variable {spans : List (List Char)}

def FindsIn (r : Regex) (ls : List (List Char)) (spans : List (List Char)) : Prop :=
  ∀ prev, Finds r ⟨prev, followed ls⟩ spans

theorem FindsIn.nil (hr : LineBound r) : FindsIn r [] [] :=
  fun prev => .done (hr.nonempty prev [] Search.lineEnd_nil)

theorem FindsIn.midline (hr : LineBound r) (hl : '\n' ∉ l) (h : FindsIn r ls spans) (hx : x ≠ '\n') :
    Finds r ⟨some x, l ++ followed ls⟩ spans := by
  induction l generalizing x with
  | nil => exact h _
  | cons y l ih =>
    obtain ⟨hy, hl⟩ : '\n' ≠ y ∧ '\n' ∉ l := by simpa using hl
    exact .pass (hr.start x _ hx) (ih hl hy.symm)

theorem FindsIn.line {prev : Option Char} (hr : LineBound r) (hl : '\n' ∉ l) (h : FindsIn r ls spans)
    (hquiet : r.spans ⟨prev, l ++ followed ls⟩ = []) : Finds r ⟨prev, l ++ followed ls⟩ spans := by
  cases l with
  | nil => exact h prev
  | cons x l =>
    obtain ⟨hx, hl⟩ : '\n' ≠ x ∧ '\n' ∉ l := by simpa using hl
    exact .pass hquiet (h.midline hr hl hx.symm)

theorem FindsIn.skip (hr : LineBound r) (hl : '\n' ∉ l) (h : FindsIn r ls spans)
    (hquiet : r.spans ⟨some '\n', l ++ followed ls⟩ = []) : FindsIn r (l :: ls) spans := by
  intro prev
  rw [followed_cons]
  exact .pass (hr.nonempty prev _ (Search.lineEnd_newline _)) (h.line hr hl hquiet)

theorem FindsIn.take (hr : LineBound r) (hn : '\n' ∉ u ++ x :: w) (h : FindsIn r ls spans)
    (hspan : (r.spans ⟨some '\n', l ++ followed ((u ++ x :: w) :: ls)⟩).head? =
      some (l ++ '\n' :: (u ++ [x]))) :
    FindsIn r (l :: (u ++ x :: w) :: ls) ((l ++ '\n' :: (u ++ [x])) :: spans) := by
  intro prev
  rw [followed_cons]
  refine .pass (hr.nonempty prev _ (Search.lineEnd_newline _)) (.take hspan (by simp) ?_)
  have hx : x ≠ '\n' := fun hx => hn (by simp [hx])
  have hw : '\n' ∉ w := fun hw => hn (by simp [hw])
  have hskip : (⟨some '\n', l ++ followed ((u ++ x :: w) :: ls)⟩ : Cursor).skip
      (l ++ '\n' :: (u ++ [x])) = ⟨some x, w ++ followed ls⟩ := by
    have htext : l ++ followed ((u ++ x :: w) :: ls) =
        (l ++ '\n' :: (u ++ [x])) ++ (w ++ followed ls) := by simp [followed_cons]
    have hlast : (l ++ '\n' :: (u ++ [x])).getLast? = some x := by
      rw [← cons_append, ← append_assoc, getLast?_concat]
    rw [Cursor.skip, htext, drop_left, hlast]
    rfl
  rw [hskip]
  exact h.midline hr hw hx

theorem FindsIn.findAll (hr : LineBound r) (hl : '\n' ∉ l) (h : FindsIn r ls spans)
    (hquiet : r.spans ⟨none, l ++ followed ls⟩ = []) :
    (r.findAll (['\n'].intercalate (l :: ls))).map Match.span = spans := by
  rw [intercalate_cons, Regex.findAll]
  exact (h.line hr hl hquiet).findAllFrom (by simp)

end Lines

end Morf.Lib.Regex
