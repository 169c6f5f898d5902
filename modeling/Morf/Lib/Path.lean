import Mathlib.Init

/-! Slash-separated paths, processed lexically. -/

namespace Morf.Lib.Path

open List

def push (rooted : Bool) (kept : List (List Char)) (s : List Char) : List (List Char) :=
  if s = [] ∨ s = ['.'] then kept
  else if s = ['.', '.'] then
    match kept with
    | [] => if rooted then [] else [s]
    | t :: rest => if t = ['.', '.'] then s :: kept else rest
  else s :: kept

def clean (p : List Char) : List Char :=
  let rooted := p.head? = some '/'
  let body := ['/'].intercalate ((p.splitOn '/').foldl (push rooted) []).reverse
  if rooted then '/' :: body else if body = [] then ['.'] else body

def join (elems : List (List Char)) : List Char :=
  match elems.filter (· ≠ []) with
  | [] => []
  | es => clean (['/'].intercalate es)

structure Plain (s : List Char) : Prop where
  ne_nil : s ≠ []
  no_slash : '/' ∉ s
  ne_dot : s ≠ ['.']
  ne_dots : s ≠ ['.', '.']

theorem Plain.push (h : Plain s) (rooted : Bool) (kept : List (List Char)) :
    push rooted kept s = s :: kept := by
  simp [Path.push, h.ne_nil, h.ne_dot, h.ne_dots]

theorem foldl_push {segs : List (List Char)} (h : ∀ s ∈ segs, Plain s) (rooted : Bool)
    (kept : List (List Char)) : segs.foldl (push rooted) kept = segs.reverse ++ kept := by
  induction segs generalizing kept with
  | nil => rfl
  | cons s segs ih =>
    obtain ⟨hs, h⟩ := forall_mem_cons.mp h
    rw [foldl_cons, hs.push, ih h]
    simp

def rooted (segs : List (List Char)) : List Char := segs.flatMap ('/' :: ·)

theorem rooted_append (segs more : List (List Char)) :
    rooted (segs ++ more) = rooted segs ++ rooted more := flatMap_append

theorem rooted_eq (h : segs ≠ []) : rooted segs = '/' :: ['/'].intercalate segs := by
  induction segs with
  | nil => exact absurd rfl h
  | cons s segs ih =>
    cases segs with
    | nil => simp [rooted, intercalate]
    | cons t segs =>
      have := ih (by simp)
      simp only [rooted, flatMap_cons, intercalate, intersperse] at this ⊢
      simp [this]

theorem clean_rooted (hne : segs ≠ []) (h : ∀ s ∈ segs, Plain s) :
    clean (rooted segs) = rooted segs := by
  have hsplit : (rooted segs).splitOn '/' = [] :: segs := by
    have : rooted segs = ['/'].intercalate ([] :: segs) := by
      rw [rooted_eq hne]
      cases segs with
      | nil => exact absurd rfl hne
      | cons => simp [intercalate]
    rw [this]
    refine splitOn_intercalate '/' ?_ (by simp)
    exact forall_mem_cons.mpr ⟨by simp, fun s hs => (h s hs).no_slash⟩
  have hroot : (rooted segs).head? = some '/' := by rw [rooted_eq hne]; rfl
  have hpush : push true [] [] = [] := by decide
  simp only [clean, hroot, decide_true, if_true, hsplit, foldl_cons, hpush,
    foldl_push h, append_nil, reverse_reverse]
  exact (rooted_eq hne).symm

theorem join_rooted (hne : segs ≠ []) (h : ∀ s ∈ segs, Plain s) (h' : ∀ s ∈ more, Plain s) :
    join (rooted segs :: more) = rooted (segs ++ more) := by
  have hr : rooted segs ≠ [] := by rw [rooted_eq hne]; simp
  have hf : (rooted segs :: more).filter (· ≠ []) = rooted segs :: more := by
    rw [filter_eq_self]
    intro s hs
    rcases mem_cons.mp hs with rfl | hs
    · simpa using hr
    · simpa using (h' s hs).ne_nil
  have hi : ['/'].intercalate (rooted segs :: more) = rooted (segs ++ more) := by
    cases more with
    | nil => simp [intercalate]
    | cons m more =>
      have := rooted_eq (show m :: more ≠ [] by simp)
      simp only [rooted, flatMap_append] at this ⊢
      rw [this]
      simp [intercalate]
  rw [join, hf]
  change clean (['/'].intercalate (rooted segs :: more)) = _
  rw [hi]
  refine clean_rooted (by simp [hne]) fun s hs => ?_
  rcases mem_append.mp hs with hs | hs
  · exact h s hs
  · exact h' s hs

def under (p q : List Char) : Bool := p == q || (p ++ ['/']).isPrefixOf q

theorem isPrefix_of_under (h : under p q = true) : p <+: q := by
  simp only [under, Bool.or_eq_true, beq_iff_eq, List.isPrefixOf_iff_prefix] at h
  rcases h with rfl | h
  · exact prefix_refl p
  · exact (List.prefix_append p ['/']).trans h

@[simp] theorem under_refl (p : List Char) : under p p = true := by simp [under]

theorem under_of_slash (h : p ++ ['/'] <+: q) : under p q = true := by
  simp [under, List.isPrefixOf_iff_prefix.mpr h]

theorem under_trans (h : under p q = true) (h' : under q r = true) : under p r = true := by
  simp only [under, Bool.or_eq_true, beq_iff_eq, List.isPrefixOf_iff_prefix] at h
  rcases h with rfl | h
  · exact h'
  · exact under_of_slash (h.trans (isPrefix_of_under h'))

theorem under_of_length_le (hp : under p r = true) (hq : under q r = true)
    (hl : p.length ≤ q.length) : under p q = true := by
  have hpq := prefix_of_prefix_length_le (isPrefix_of_under hp) (isPrefix_of_under hq) hl
  simp only [under, Bool.or_eq_true, beq_iff_eq, List.isPrefixOf_iff_prefix] at hp
  rcases hp with rfl | hp
  · rw [hpq.eq_of_length_le (isPrefix_of_under hq).length_le]
    exact under_refl q
  rcases Nat.lt_or_ge p.length q.length with hlt | hge
  · refine under_of_slash (prefix_of_prefix_length_le hp (isPrefix_of_under hq) ?_)
    rw [length_append]
    exact hlt
  · rw [hpq.eq_of_length_le hge]
    exact under_refl q

theorem under_or_under (hp : under p r = true) (hq : under q r = true) :
    under p q = true ∨ under q p = true := by
  rcases Nat.le_total p.length q.length with hl | hl
  · exact .inl (under_of_length_le hp hq hl)
  · exact .inr (under_of_length_le hq hp hl)

theorem under_rooted (segs more : List (List Char)) :
    under (rooted segs) (rooted (segs ++ more)) = true := by
  cases more with
  | nil => simp [under]
  | cons m more => simp [under, rooted]

/-! A relative path that stays below the directory it starts from. -/

theorem push_skip (h : s = [] ∨ s = ['.']) (rooted : Bool) (kept : List (List Char)) :
    push rooted kept s = kept := if_pos h

theorem push_other (h : ¬ (s = [] ∨ s = ['.'])) (hd : s ≠ ['.', '.']) (rooted : Bool)
    (kept : List (List Char)) : push rooted kept s = s :: kept :=
  (if_neg h).trans (if_neg hd)

theorem push_dots (rooted : Bool) (t : List Char) (rest : List (List Char)) :
    push rooted (t :: rest) ['.', '.'] =
      if t = ['.', '.'] then ['.', '.'] :: t :: rest else rest := rfl

theorem push_above (h : ['.', '.'] ∉ push false kept s) (more : List (List Char)) :
    ['.', '.'] ∉ kept ∧ push true (kept ++ more) s = push false kept s ++ more := by
  by_cases hskip : s = [] ∨ s = ['.']
  · rw [push_skip hskip] at h
    exact ⟨h, by rw [push_skip hskip, push_skip hskip]⟩
  by_cases hdots : s = ['.', '.']
  · subst hdots
    cases kept with
    | nil => exact absurd (mem_singleton_self _) h
    | cons t rest =>
      by_cases ht : t = ['.', '.']
      · rw [push_dots, if_pos ht] at h
        exact absurd mem_cons_self h
      · rw [push_dots, if_neg ht] at h
        refine ⟨not_mem_cons_of_ne_of_not_mem (Ne.symm ht) h, ?_⟩
        rw [cons_append, push_dots, push_dots, if_neg ht, if_neg ht]
  · rw [push_other hskip hdots] at h
    refine ⟨not_mem_of_not_mem_cons h, ?_⟩
    rw [push_other hskip hdots, push_other hskip hdots, cons_append]

theorem foldl_push_above {segs : List (List Char)} (h : ['.', '.'] ∉ segs.foldl (push false) kept)
    (more : List (List Char)) :
    ['.', '.'] ∉ kept ∧
      segs.foldl (push true) (kept ++ more) = segs.foldl (push false) kept ++ more := by
  induction segs generalizing kept with
  | nil => exact ⟨h, rfl⟩
  | cons s segs ih =>
    obtain ⟨hs, heq⟩ := ih h
    obtain ⟨hk, hp⟩ := push_above hs more
    exact ⟨hk, by rw [foldl_cons, foldl_cons, hp, heq]⟩

theorem getLast_push (hk : ['.', '.'] ∈ kept → kept.getLast? = some ['.', '.'])
    (h : ['.', '.'] ∈ push false kept s) : (push false kept s).getLast? = some ['.', '.'] := by
  by_cases hskip : s = [] ∨ s = ['.']
  · rw [push_skip hskip] at h ⊢
    exact hk h
  by_cases hdots : s = ['.', '.']
  · subst hdots
    cases kept with
    | nil => rfl
    | cons t rest =>
      by_cases ht : t = ['.', '.']
      · rw [push_dots, if_pos ht, getLast?_cons_cons]
        exact hk (ht ▸ mem_cons_self)
      · rw [push_dots, if_neg ht] at h ⊢
        have hlast := hk (mem_cons_of_mem t h)
        cases rest with
        | nil => cases h
        | cons u rest => rwa [getLast?_cons_cons] at hlast
  · rw [push_other hskip hdots] at h ⊢
    have hmem : ['.', '.'] ∈ kept := mem_of_ne_of_mem (Ne.symm hdots) h
    cases kept with
    | nil => cases hmem
    | cons t rest =>
      rw [getLast?_cons_cons]
      exact hk hmem

theorem getLast_foldl_push {segs : List (List Char)}
    (hk : ['.', '.'] ∈ kept → kept.getLast? = some ['.', '.'])
    (h : ['.', '.'] ∈ segs.foldl (push false) kept) :
    (segs.foldl (push false) kept).getLast? = some ['.', '.'] := by
  induction segs generalizing kept with
  | nil => exact hk h
  | cons s segs ih => exact ih (getLast_push hk) h

def remains (p : List Char) : List (List Char) := ((p.splitOn '/').foldl (push false) []).reverse

theorem clean_relative (h : p.head? ≠ some '/') (hb : ['/'].intercalate (remains p) ≠ []) :
    clean p = ['/'].intercalate (remains p) := by
  simp only [clean, h, decide_false, if_false]
  exact if_neg hb

theorem clean_escapes (h : p.head? ≠ some '/') (hd : ['.', '.'] ∈ remains p) :
    clean p = ['.', '.'] ∨ ['.', '.', '/'] <+: clean p := by
  have hlast : ((p.splitOn '/').foldl (push false) []).getLast? = some ['.', '.'] :=
    getLast_foldl_push nofun (mem_reverse.mp hd)
  rw [← head?_reverse] at hlast
  obtain ⟨more, hmore⟩ : ∃ more, remains p = ['.', '.'] :: more := head?_eq_some_iff.mp hlast
  cases more with
  | nil =>
    left
    rw [clean_relative h (by rw [hmore]; exact nofun), hmore]
    rfl
  | cons m more =>
    right
    have hbody : ['/'].intercalate (remains p) =
        ['.', '.', '/'] ++ ['/'].intercalate (m :: more) := by
      rw [hmore]
      simp [intercalate]
    rw [clean_relative h (by rw [hbody]; exact nofun), hbody]
    exact List.prefix_append _ _

theorem eq_rooted_of_clean (hr : root.head? = some '/') (hc : clean root = root)
    (hne : root ≠ ['/']) :
    ((root.splitOn '/').foldl (push true) []).reverse ≠ [] ∧
      rooted ((root.splitOn '/').foldl (push true) []).reverse = root := by
  simp only [clean, hr, decide_true, if_true] at hc
  have hk : ((root.splitOn '/').foldl (push true) []).reverse ≠ [] := by
    intro hnil
    rw [hnil] at hc
    exact hne hc.symm
  exact ⟨hk, (rooted_eq hk).trans hc⟩

theorem join_eq_rooted (hr : root.head? = some '/') (hc : clean root = root) (hne : root ≠ ['/'])
    (hd : ['.', '.'] ∉ remains name) : join [root, name] = root ++ rooted (remains name) := by
  have hnil : root ≠ [] := by
    rintro rfl
    cases hr
  by_cases hname : name = []
  · rw [join, hname]
    simpa [hnil, intercalate, remains, rooted, push] using hc
  · obtain ⟨hk, hroot⟩ := eq_rooted_of_clean hr hc hne
    have hj : join [root, name] = clean (root ++ '/' :: name) := by
      rw [join]
      simp [hnil, hname, intercalate]
    have hr' : (root ++ '/' :: name).head? = some '/' := by
      rw [head?_append, hr]
      rfl
    have habove := (foldl_push_above (mt mem_reverse.mpr hd)
      ((root.splitOn '/').foldl (push true) [])).2
    have hjoin : join [root, name] = rooted (((root.splitOn '/').foldl (push true) []).reverse ++
        remains name) := by
      rw [hj, rooted_eq (append_ne_nil_of_left_ne_nil hk _), clean]
      simp only [hr', decide_true, if_true, splitOn_append_cons_self, foldl_append]
      rw [remains, ← reverse_append, ← habove]
      rfl
    rw [hjoin, rooted_append, hroot]

theorem join_under (hr : root.head? = some '/') (hc : clean root = root) (hne : root ≠ ['/'])
    (hd : ['.', '.'] ∉ remains name) : under root (join [root, name]) = true := by
  have hunder := under_rooted ((root.splitOn '/').foldl (push true) []).reverse (remains name)
  rwa [rooted_append, (eq_rooted_of_clean hr hc hne).2, ← join_eq_rooted hr hc hne hd] at hunder

/-! What is left of a relative path is what a second reading leaves of it. -/

theorem no_slash_of_mem_splitOn {p : List Char} (h : s ∈ p.splitOn '/') : '/' ∉ s := by
  induction p generalizing s with
  | nil =>
    rw [mem_singleton.mp h]
    exact not_mem_nil
  | cons c p ih =>
    rw [splitOn, splitOnP_cons_eq_if_modifyHead, ← splitOn] at h
    split at h
    · rcases mem_cons.mp h with rfl | h
      · exact not_mem_nil
      · exact ih h
    · rename_i hc
      cases hp : p.splitOn '/' with
      | nil =>
        rw [hp] at h
        cases h
      | cons t ts =>
        rw [hp, modifyHead_cons] at h
        rcases mem_cons.mp h with rfl | h
        · exact not_mem_cons_of_ne_of_not_mem (fun he => hc (beq_iff_eq.mpr he.symm)) (ih (hp ▸ mem_cons_self))
        · exact ih (hp ▸ mem_cons_of_mem t h)

theorem mem_push (h : t ∈ push false kept s) : t ∈ kept ∨ t = s ∧ s ≠ [] ∧ s ≠ ['.'] := by
  by_cases hskip : s = [] ∨ s = ['.']
  · rw [push_skip hskip] at h
    exact .inl h
  by_cases hdots : s = ['.', '.']
  · subst hdots
    cases kept with
    | nil => exact .inr ⟨mem_singleton.mp h, by decide, by decide⟩
    | cons u rest =>
      rw [push_dots] at h
      split at h
      · exact (mem_cons.mp h).symm.imp_right fun ht => ⟨ht, by decide, by decide⟩
      · exact .inl (mem_cons_of_mem _ h)
  · rw [push_other hskip hdots] at h
    exact (mem_cons.mp h).symm.imp_right fun ht => ⟨ht, not_or.mp hskip⟩

theorem plain_of_mem_remains (hd : ['.', '.'] ∉ remains p) (h : s ∈ remains p) : Plain s := by
  have hseg : ∀ {segs kept : List (List Char)}, s ∈ segs.foldl (push false) kept →
      s ∈ kept ∨ s ∈ segs ∧ s ≠ [] ∧ s ≠ ['.'] := by
    intro segs
    induction segs with
    | nil => exact .inl
    | cons t segs ih =>
      intro kept hs
      rcases ih hs with hs | ⟨hs, hne⟩
      · exact (mem_push hs).imp_right fun ⟨ht, hne⟩ => ⟨ht ▸ mem_cons_self, ht ▸ hne⟩
      · exact .inr ⟨mem_cons_of_mem t hs, hne⟩
  obtain ⟨hs, hne, hdot⟩ := (hseg (mem_reverse.mp h)).resolve_left not_mem_nil
  exact ⟨hne, no_slash_of_mem_splitOn hs, hdot, fun he => hd (he ▸ h)⟩

theorem clean_eq_dot (hp : p.head? ≠ some '/') (h : remains p = []) : clean p = ['.'] := by
  rw [remains, reverse_eq_nil_iff] at h
  simp [clean, hp, h, intercalate]

theorem remains_clean (hp : p.head? ≠ some '/') (hd : ['.', '.'] ∉ remains p) :
    remains (clean p) = remains p := by
  have hplain : ∀ s ∈ remains p, Plain s := fun s => plain_of_mem_remains hd
  by_cases hnil : remains p = []
  · rw [clean_eq_dot hp hnil, hnil]
    rfl
  · have hbody : ['/'].intercalate (remains p) ≠ [] := by
      obtain ⟨s, segs, hs⟩ := exists_cons_of_ne_nil hnil
      have hne := (hplain s (hs ▸ mem_cons_self)).ne_nil
      rw [hs]
      cases segs <;> simp [intercalate, hne]
    rw [clean_relative hp hbody, remains,
      splitOn_intercalate '/' (fun s hs => (hplain s hs).no_slash) hnil, foldl_push hplain]
    simp

/-- `filepath.Dir` -/
def dir (p : List Char) : List Char := clean (p.reverse.dropWhile (· ≠ '/')).reverse

section Parent

variable (hr : root.head? = some '/') (hc : clean root = root) (hne : root ≠ ['/'])
include hr hc hne

theorem clean_append_rooted (h : ∀ s ∈ more, Plain s) :
    clean (root ++ rooted more) = root ++ rooted more := by
  by_cases hnil : more = []
  · subst hnil
    exact (congrArg clean (append_nil root)).trans (hc.trans (append_nil root).symm)
  · obtain ⟨hk, hroot⟩ := eq_rooted_of_clean hr hc hne
    have hhead : (root ++ rooted more).head? = some '/' := by
      rw [head?_append, hr]
      rfl
    have hsplit : (root ++ rooted more).splitOn '/' = root.splitOn '/' ++ more := by
      rw [rooted_eq hnil, splitOn_append_cons_self,
        splitOn_intercalate '/' (fun s hs => (h s hs).no_slash) hnil]
    simp only [clean, hhead, decide_true, if_true, hsplit, foldl_append, foldl_push h, reverse_append,
      reverse_reverse]
    rw [← rooted_eq (append_ne_nil_of_left_ne_nil hk _), rooted_append, hroot]

theorem dir_append_rooted (h : ∀ t ∈ more, Plain t) (hs : '/' ∉ s) :
    dir (root ++ rooted (more ++ [s])) = root ++ rooted more := by
  have hlast : root ++ rooted (more ++ [s]) = (root ++ rooted more) ++ '/' :: s := by
    simp [rooted]
  have hcut : (root ++ rooted (more ++ [s])).reverse.dropWhile (· ≠ '/') =
      '/' :: (root ++ rooted more).reverse := by
    rw [hlast, reverse_append, reverse_cons, append_assoc, dropWhile_append_of_pos]
    · rfl
    · exact fun c hc => decide_eq_true fun he => hs (he ▸ mem_reverse.mp hc)
  have hslash : clean (root ++ rooted more ++ ['/']) = clean (root ++ rooted more) := by
    have hsplit := splitOn_append_cons_self (a := '/') (root ++ rooted more) []
    simp only [clean, hsplit, head?_append, hr, foldl_append]
    rfl
  rw [dir, hcut, reverse_cons, reverse_reverse, hslash, clean_append_rooted hr hc hne h]

end Parent

theorem eq_of_under (hl : p.length = p'.length) (h : under p q = true) (h' : under p' q = true) :
    p = p' :=
  (prefix_of_prefix_length_le (isPrefix_of_under h) (isPrefix_of_under h')
    (Nat.le_of_eq hl)).eq_of_length hl

def base (p : List Char) : List Char :=
  let body := p.reverse.dropWhile (· = '/')
  if p = [] then ['.'] else if body = [] then ['/'] else (body.takeWhile (· ≠ '/')).reverse

example : base "a/b.yaml//".toList = "b.yaml".toList := by decide

example : clean "a/./b//../c".toList = "a/c".toList := by decide

end Morf.Lib.Path
