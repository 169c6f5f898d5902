import Mathlib.Data.List.Infix
import Mathlib.Data.List.TakeWhile

/-! Regular expressions with leftmost-first matching: the results of a match attempt are a
list in the order of preference, and a search takes the first one of the first place that
has any. Groups are numbered from left to right. -/

namespace Morf.Lib

open List

/-- A place in a text: the character before it and what follows. -/
structure Cursor where
  prev : Option Char
  rest : List Char
  deriving DecidableEq

namespace Cursor

def skip (c : Cursor) (w : List Char) : Cursor := ⟨w.getLast?.or c.prev, c.rest.drop w.length⟩

def start (text : List Char) : Cursor := ⟨none, text⟩

@[simp] theorem skip_nil (c : Cursor) : c.skip [] = c := rfl

@[simp] theorem skip_rest (c : Cursor) (w : List Char) : (c.skip w).rest = c.rest.drop w.length :=
  rfl

theorem skip_skip (c : Cursor) (w v : List Char) : (c.skip w).skip v = c.skip (w ++ v) := by
  simp [skip, Option.or_assoc, getLast?_append]

end Cursor

inductive Anchor
  | textStart
  | textEnd
  | wordBoundary
  | notWordBoundary
  | lineStart
  deriving DecidableEq

def isWord (c : Char) : Bool := c.isAlphanum || c == '_'

def Anchor.holds : Anchor → Cursor → Bool
  | .textStart, c => c.prev.isNone
  | .textEnd, c => c.rest.isEmpty
  | .wordBoundary, c => c.prev.any isWord != c.rest.head?.any isWord
  | .notWordBoundary, c => c.prev.any isWord == c.rest.head?.any isWord
  | .lineStart, c => c.prev.all (· == '\n')

inductive Regex
  | empty
  | set (negated : Bool) (ranges : List (Char × Char))
  | anchor (a : Anchor)
  | seq (r s : Regex)
  | alt (r s : Regex)
  | star (greedy : Bool) (r : Regex)
  | group (r : Regex)
  deriving DecidableEq

namespace Regex

def inSet (negated : Bool) (ranges : List (Char × Char)) (c : Char) : Bool :=
  (ranges.any fun p => p.1 ≤ c && c ≤ p.2) != negated

def groups : Regex → Nat
  | .empty | .set .. | .anchor _ => 0
  | .seq r s | .alt r s => r.groups + s.groups
  | .star _ r => r.groups
  | .group r => r.groups + 1

abbrev Found := List Nat × List Char

def after (c : Cursor) (next : Cursor → List Found) (f : Found) : List Found :=
  (next (c.skip f.2)).map fun f' => (f.1 ++ f'.1, f.2 ++ f'.2)

def loop (step : Cursor → List Found) (greedy : Bool) : Nat → Cursor → List Found
  | 0, _ => [([], [])]
  | n + 1, c =>
    let more := (step c).flatMap fun f =>
      if f.2 = [] then [f] else after c (loop step greedy n) f
    if greedy then more ++ [([], [])] else ([], []) :: more

/-- All ways to match at a place, the preferred ones first; `g` is the number of the next
group. -/
def run : Regex → Nat → Cursor → List Found
  | .empty, _, _ => [([], [])]
  | .set negated ranges, _, c =>
    match c.rest with
    | [] => []
    | x :: _ => if inSet negated ranges x then [([], [x])] else []
  | .anchor a, _, c => if a.holds c then [([], [])] else []
  | .seq r s, g, c => (r.run g c).flatMap (after c (s.run (g + r.groups)))
  | .alt r s, g, c => r.run g c ++ s.run (g + r.groups) c
  | .star greedy r, g, c => loop (r.run g) greedy (c.rest.length + 1) c
  | .group r, g, c => (r.run (g + 1) c).map fun f => (g :: f.1, f.2)

structure Match where
  skipped : List Char
  groups : List Nat
  span : List Char
  deriving DecidableEq

def findFrom (r : Regex) (prev : Option Char) (rest : List Char) : Option Match :=
  match (r.run 1 ⟨prev, rest⟩).head? with
  | some f => some ⟨[], f.1, f.2⟩
  | none =>
    match rest with
    | [] => none
    | c :: cs => (r.findFrom (some c) cs).map fun m => { m with skipped := c :: m.skipped }

def find (r : Regex) (c : Cursor) : Option Match := r.findFrom c.prev c.rest

def isMatch (r : Regex) (text : List Char) : Bool := (r.find (.start text)).isSome

/-- `ended` says that the previous match ends here: an empty match is then passed over. -/
def findAllFrom (r : Regex) : Nat → Bool → Cursor → List Match
  | 0, _, _ => []
  | n + 1, ended, c =>
    match r.find c with
    | none => []
    | some m =>
      if m.skipped ++ m.span = [] then
        let later := if c.rest = [] then [] else r.findAllFrom n false (c.skip (c.rest.take 1))
        if ended then later else m :: later
      else m :: r.findAllFrom n true (c.skip (m.skipped ++ m.span))

/-- The successive matches in a text; the `skipped` part of each starts where the previous
match ends (or one character later, after an empty one). -/
def findAll (r : Regex) (text : List Char) : List Match :=
  r.findAllFrom (text.length + 2) false (.start text)

def removeAll (r : Regex) (text : List Char) : List Char :=
  let ms := r.findAll text
  ms.flatMap Match.skipped ++ text.drop (ms.flatMap fun m => m.skipped ++ m.span).length

def char (c : Char) : Regex := .set false [(c, c)]

def any : Regex := .set true [('\n', '\n')]

def lit : List Char → Regex
  | [] => .empty
  | c :: cs => .seq (char c) (lit cs)

def times (r : Regex) : Nat → Regex
  | 0 => .empty
  | n + 1 => .seq r (times r n)

def opt (r : Regex) : Regex := .alt r .empty

def atMost (r : Regex) : Nat → Regex
  | 0 => .empty
  | n + 1 => opt (.seq r (atMost r n))

def alts (rs : List Regex) : Regex := rs.foldr .alt (.set false [])

section Prefixes

variable {c : Cursor}

theorem mem_after {next : Cursor → List Found} :
    f' ∈ after c next f ↔ ∃ e ∈ next (c.skip f.2), f' = (f.1 ++ e.1, f.2 ++ e.2) := by
  simp [after, eq_comm]

theorem prefix_append (hv : v <+: c.rest) (hw : w <+: (c.skip v).rest) : v ++ w <+: c.rest := by
  obtain ⟨t, ht⟩ := hv
  simpa [← ht] using hw

theorem loop_induct {P : Cursor → Found → Prop} (hnil : ∀ c, P c ([], []))
    (happ : ∀ {c e e'}, P c e → P (c.skip e.2) e' → P c (e.1 ++ e'.1, e.2 ++ e'.2))
    (hstep : ∀ c, ∀ f ∈ step c, P c f) (greedy : Bool) (n : Nat) :
    ∀ c, ∀ f ∈ loop step greedy n c, P c f := by
  induction n with
  | zero => intro c f hf; exact mem_singleton.mp hf ▸ hnil c
  | succ n ih =>
    intro c f hf
    have hmore : f ∈ ((step c).flatMap fun f =>
        if f.2 = [] then [f] else after c (loop step greedy n) f) ∨ f = ([], []) := by
      cases greedy <;> simpa [loop, or_comm] using hf
    rcases hmore with hmore | rfl
    · obtain ⟨e, he, hf⟩ := mem_flatMap.mp hmore
      split at hf
      · exact mem_singleton.mp hf ▸ hstep c e he
      · obtain ⟨e', he', rfl⟩ := mem_after.mp hf
        exact happ (hstep c e he) (ih _ e' he')
    · exact hnil c

theorem run_prefix (r : Regex) : ∀ g c, ∀ f ∈ r.run g c, f.2 <+: c.rest := by
  induction r with
  | empty => intro g c f hf; simp_all [run]
  | set negated ranges =>
    intro g c f hf
    cases hc : c.rest with
    | nil => simp [run, hc] at hf
    | cons x xs => simp [run, hc] at hf; simp [hf.2]
  | anchor a => intro g c f hf; simp_all [run]
  | seq r s ihr ihs =>
    intro g c f hf
    obtain ⟨e, he, hf⟩ := mem_flatMap.mp hf
    obtain ⟨e', he', rfl⟩ := mem_after.mp hf
    exact prefix_append (ihr g c e he) (ihs _ _ e' he')
  | alt r s ihr ihs =>
    intro g c f hf
    exact (mem_append.mp hf).elim (ihr _ _ f) (ihs _ _ f)
  | star greedy r ih =>
    intro g c f hf
    exact loop_induct (fun _ => List.nil_prefix) prefix_append (ih g) greedy _ c f hf
  | group r ih =>
    intro g c f hf
    obtain ⟨e, he, rfl⟩ := mem_map.mp hf
    exact ih _ c e he

end Prefixes

section Literals

variable {ranges : List (Char × Char)}

theorem run_set (hc : c.rest = x :: xs) :
    (set negated ranges).run g c = if inSet negated ranges x then [([], [x])] else [] := by
  simp [run, hc]

theorem inSet_char : inSet false [(x, x)] y = true ↔ y = x := by
  have h : (x ≤ y ∧ y ≤ x) ↔ y = x :=
    ⟨fun h => Char.le_antisymm h.2 h.1, by rintro rfl; simp⟩
  simp [inSet, h]

theorem run_lit (w : List Char) : (lit w).run g c = if w <+: c.rest then [([], w)] else [] := by
  induction w generalizing g c with
  | nil => simp [lit, run]
  | cons x xs ih =>
    cases hc : c.rest with
    | nil => simp [lit, char, run, hc]
    | cons y ys =>
      rw [lit, run, char, run_set hc]
      by_cases hy : y = x
      · subst hy
        rw [if_pos (inSet_char.mpr rfl)]
        by_cases hp : xs <+: ys <;> simp [after, ih, hc, hp]
      · simp [inSet_char, hy, Ne.symm hy]

theorem run_star_set (negated : Bool) (ranges : List (Char × Char)) :
    (star true (set negated ranges)).run g c =
      (c.rest.takeWhile (inSet negated ranges)).inits.reverse.map fun w => ([], w) := by
  have key : ∀ n c, c.rest.length < n → loop ((set negated ranges).run g) true n c =
      (c.rest.takeWhile (inSet negated ranges)).inits.reverse.map fun w => ([], w) := by
    intro n
    induction n with
    | zero => intro c h; omega
    | succ n ih =>
      intro c h
      cases hc : c.rest with
      | nil => simp [loop, run, hc]
      | cons x xs =>
        have hlen : (c.skip [x]).rest.length < n := by simp [hc] at h ⊢; omega
        simp only [loop, run_set hc]
        by_cases hx : inSet negated ranges x
        · simp [hx, after, ih _ hlen, hc, Function.comp_def]
        · simp [hx]
  exact key _ c (by omega)

theorem run_seq (r s : Regex) :
    (seq r s).run g c = (r.run g c).flatMap (after c (s.run (g + r.groups))) := rfl

theorem mem_inits_takeWhile {p : Char → Bool} :
    w ∈ (t.takeWhile p).inits.reverse ↔ w <+: t ∧ ∀ x ∈ w, p x := by
  rw [mem_reverse, mem_inits]
  constructor
  · exact fun h => ⟨h.trans (List.takeWhile_prefix p), fun x hx => mem_takeWhile_imp (h.mem hx)⟩
  · rintro ⟨⟨u, rfl⟩, hw⟩
    rw [takeWhile_append_of_pos hw]
    exact List.prefix_append _ _

def between (a : List Char) (negated : Bool) (ranges : List (Char × Char)) (b : List Char) : Regex :=
  .seq (lit a) (.seq (.star true (.set negated ranges)) (lit b))

theorem run_between : (between a negated ranges b).run g c =
    if a <+: c.rest then
      ((c.rest.drop a.length).takeWhile (inSet negated ranges)).inits.reverse.flatMap fun w =>
        if a ++ w ++ b <+: c.rest then [([], a ++ w ++ b)] else []
    else [] := by
  rw [between, run_seq, run_lit]
  split
  · rename_i ha
    obtain ⟨t, ht⟩ := ha
    simp only [flatMap_cons, flatMap_nil, append_nil, after, run_seq, run_star_set,
      Cursor.skip_rest, flatMap_map, nil_append, map_flatMap, map_map]
    refine flatMap_congr fun w hw => ?_
    obtain ⟨u, hu⟩ : w <+: t := by simpa [← ht] using (mem_inits_takeWhile.mp hw).1
    by_cases hb : b <+: u <;> simp [run_lit, ← ht, ← hu, hb, append_assoc]
  · rfl

theorem mem_run_between : f ∈ (between a negated ranges b).run g c ↔
    ∃ w, (∀ x ∈ w, inSet negated ranges x) ∧ a ++ w ++ b <+: c.rest ∧ f = ([], a ++ w ++ b) := by
  rw [run_between]
  constructor
  · intro hf
    split at hf
    · obtain ⟨w, hw, hf⟩ := mem_flatMap.mp hf
      split at hf
      · exact ⟨w, (mem_inits_takeWhile.mp hw).2, ‹_›, mem_singleton.mp hf⟩
      · cases hf
    · cases hf
  · rintro ⟨w, hw, hp, rfl⟩
    obtain ⟨u, hu⟩ := hp
    have ha : a <+: c.rest := ⟨w ++ b ++ u, by simpa [append_assoc] using hu⟩
    rw [if_pos ha]
    refine mem_flatMap.mpr ⟨w, mem_inits_takeWhile.mpr ⟨?_, hw⟩, by simp [← hu]⟩
    exact ⟨b ++ u, by simp [← hu, append_assoc]⟩

theorem inits_reverse_pairwise (t : List Char) :
    t.inits.reverse.Pairwise fun w v => v.length ≤ w.length := by
  induction t with
  | nil => simp
  | cons x xs ih =>
    rw [inits_cons, reverse_cons, ← map_reverse, pairwise_append,
      pairwise_map]
    exact ⟨by simpa using ih, by simp, by simp⟩

theorem head_run_between {span : List Char}
    (h : ((between a negated ranges b).run g c).head? = some (gs, span)) :
    ∃ w, span = a ++ w ++ b ∧ (∀ x ∈ w, inSet negated ranges x) ∧
      ∀ v, (∀ x ∈ v, inSet negated ranges x) → a ++ v ++ b <+: c.rest → v.length ≤ w.length := by
  rw [run_between] at h
  split at h
  · rw [head?_flatMap] at h
    obtain ⟨l₁, w, l₂, hl, hw, hl₁⟩ := findSome?_eq_some_iff.mp h
    have hw₀ := mem_inits_takeWhile.mp (hl ▸ mem_append_right l₁ mem_cons_self)
    have hspan : span = a ++ w ++ b := by
      split at hw
      · cases hw
        rfl
      · cases hw
    refine ⟨w, hspan, hw₀.2, fun v hv hp => ?_⟩
    obtain ⟨u, hu⟩ := hp
    have hmem : v ∈ l₁ ++ w :: l₂ :=
      hl ▸ mem_inits_takeWhile.mpr ⟨⟨b ++ u, by simp [← hu, append_assoc]⟩, hv⟩
    rcases mem_append.mp hmem with hv₁ | hv₂
    · -- a longer text that fits would have been taken first
      have := hl₁ v hv₁
      simp [← hu] at this
    · have hsort := hl ▸ inits_reverse_pairwise
        ((c.rest.drop a.length).takeWhile (inSet negated ranges))
      rcases mem_cons.mp hv₂ with rfl | hv₂
      · exact Nat.le_refl _
      · exact rel_of_pairwise_cons (pairwise_append.mp hsort).2.1 hv₂
  · cases h

end Literals

section Search

variable {r : Regex}

def MatchesAt (r : Regex) (c : Cursor) (groups : List Nat) (span : List Char) : Prop :=
  (r.run 1 c).head? = some (groups, span)

theorem MatchesAt.prefix {span : List Char} (h : r.MatchesAt c gs span) : span <+: c.rest :=
  r.run_prefix 1 c _ (mem_of_head? h)

theorem findFrom_some {prev : Option Char} (h : r.findFrom prev rest = some m) :
    r.MatchesAt (Cursor.skip ⟨prev, rest⟩ m.skipped) m.groups m.span ∧ m.skipped <+: rest := by
  induction rest generalizing prev m with
  | nil =>
    rw [findFrom] at h
    split at h
    · rename_i f hf
      cases h
      exact ⟨hf, List.nil_prefix⟩
    · cases h
  | cons x xs ih =>
    rw [findFrom] at h
    split at h
    · rename_i f hf
      cases h
      exact ⟨hf, List.nil_prefix⟩
    · obtain ⟨m', hm', rfl⟩ := Option.map_eq_some_iff.mp h
      obtain ⟨hr, hp⟩ := ih hm'
      refine ⟨?_, by simpa using hp⟩
      have : Cursor.skip ⟨prev, x :: xs⟩ (x :: m'.skipped) = Cursor.skip ⟨some x, xs⟩ m'.skipped :=
        (Cursor.skip_skip ⟨prev, x :: xs⟩ [x] m'.skipped).symm
      simpa only [this] using hr

theorem mem_findAllFrom (h : m ∈ r.findAllFrom n ended c) :
    ∃ a, a <+: c.rest ∧ r.MatchesAt (c.skip a) m.groups m.span := by
  induction n generalizing ended c with
  | zero => cases h
  | succ n ih =>
    rw [findAllFrom] at h
    split at h
    · cases h
    · rename_i m₀ hm₀
      obtain ⟨hr, hp⟩ := findFrom_some hm₀
      have htail : ∀ {e : Bool} {w : List Char}, w <+: c.rest → m ∈ r.findAllFrom n e (c.skip w) →
          ∃ a, a <+: c.rest ∧ r.MatchesAt (c.skip a) m.groups m.span := by
        intro e w hw hm
        obtain ⟨a, ha, hr⟩ := ih hm
        exact ⟨w ++ a, prefix_append hw ha, by rwa [Cursor.skip_skip] at hr⟩
      have hcons : ∀ {l : List Match}, m ∈ m₀ :: l → m = m₀ ∨ m ∈ l := mem_cons.mp
      have hfirst : m = m₀ → ∃ a, a <+: c.rest ∧ r.MatchesAt (c.skip a) m.groups m.span := by
        rintro rfl
        exact ⟨m.skipped, hp, hr⟩
      split at h
      · -- an empty match: the search goes on one character later
        have hlater : m ∈ (if c.rest = [] then []
            else r.findAllFrom n false (c.skip (c.rest.take 1))) →
            ∃ a, a <+: c.rest ∧ r.MatchesAt (c.skip a) m.groups m.span := by
          intro hm
          split at hm
          · cases hm
          · exact htail (List.take_prefix 1 c.rest) hm
        cases ended with
        | true => exact hlater h
        | false => exact (hcons h).elim hfirst hlater
      · exact (hcons h).elim hfirst (htail (prefix_append hp hr.prefix))

theorem mem_findAll (h : m ∈ r.findAll text) :
    ∃ a, a <+: text ∧ r.MatchesAt (Cursor.skip (.start text) a) m.groups m.span :=
  mem_findAllFrom h

end Search

section Labels

variable {ι : Type}

def union (rs : List (ι × Regex)) : Regex := alts (rs.map fun p => .group p.2)

def labels (rs : List (ι × Regex)) : List (Option ι) :=
  none :: rs.flatMap fun p => List.replicate (1 + p.2.groups) (some p.1)

def owner (labels : List (Option ι)) (gs : List Nat) : Option ι :=
  (List.range' 1 (labels.length - 1)).findSome? fun g =>
    if g ∈ gs then labels[g]?.join else none

theorem run_groups (r : Regex) :
    ∀ g c, ∀ f ∈ r.run g c, ∀ x ∈ f.1, g ≤ x ∧ x < g + r.groups := by
  induction r with
  | empty => intro g c f hf; simp_all [run]
  | set negated ranges =>
    intro g c f hf
    cases hc : c.rest with
    | nil => simp [run, hc] at hf
    | cons y ys => simp [run, hc] at hf; simp [hf.2]
  | anchor a => intro g c f hf; simp_all [run]
  | seq r s ihr ihs =>
    intro g c f hf x hx
    obtain ⟨e, he, hf⟩ := mem_flatMap.mp hf
    obtain ⟨e', he', rfl⟩ := mem_after.mp hf
    simp only [groups]
    rcases mem_append.mp hx with hx | hx
    · have := ihr g c e he x hx; omega
    · have := ihs _ _ e' he' x hx; omega
  | alt r s ihr ihs =>
    intro g c f hf x hx
    simp only [groups]
    rcases mem_append.mp hf with hf | hf
    · have := ihr _ _ f hf x hx; omega
    · have := ihs _ _ f hf x hx; omega
  | star greedy r ih =>
    intro g c
    refine loop_induct (P := fun _ f => ∀ x ∈ f.1, g ≤ x ∧ x < g + r.groups) (fun _ => by simp)
      (fun he he' x hx => ?_) (ih g) greedy _ c
    exact (mem_append.mp hx).elim (he x) (he' x)
  | group r ih =>
    intro g c f hf x hx
    obtain ⟨e, he, rfl⟩ := mem_map.mp hf
    simp only [groups]
    rcases mem_cons.mp hx with rfl | hx
    · omega
    · have := ih _ c e he x hx; omega

theorem union_groups_cons (p : ι × Regex) (rs : List (ι × Regex)) :
    (union (p :: rs)).groups = (1 + p.2.groups) + (union rs).groups := by
  simp [union, alts, groups, Nat.add_comm]

theorem length_flatMap_labels (rs : List (ι × Regex)) :
    (rs.flatMap fun p => replicate (1 + p.2.groups) (some p.1)).length = (union rs).groups := by
  induction rs with
  | nil => rfl
  | cons p rs ih =>
    rw [flatMap_cons, length_append, length_replicate, ih, union_groups_cons]

theorem labels_length (rs : List (ι × Regex)) : (labels rs).length = (union rs).groups + 1 := by
  rw [labels, length_cons, length_flatMap_labels]

theorem labels_append {rs₁ : List (ι × Regex)} (hj : j ≤ r.groups) :
    (labels (rs₁ ++ (i, r) :: rs₂))[1 + (union rs₁).groups + j]? = some (some i) := by
  have hindex : 1 + (union rs₁).groups + j = (union rs₁).groups + j + 1 := by omega
  rw [labels, hindex, getElem?_cons_succ, flatMap_append,
    getElem?_append_right (by rw [length_flatMap_labels]; omega), length_flatMap_labels,
    Nat.add_sub_cancel_left, flatMap_cons, getElem?_append_left (by simp; omega),
    getElem?_replicate_of_lt (by dsimp only; omega)]

theorem union_run {rs : List (ι × Regex)} {span : List Char}
    (h : ((union rs).run g c).head? = some (gs, span)) :
    ∃ rs₁ i r rs₂ gs', rs = rs₁ ++ (i, r) :: rs₂ ∧ (∀ p ∈ rs₁, ∃ g, p.2.run g c = []) ∧
      (r.run (g + (union rs₁).groups + 1) c).head? = some (gs', span) ∧
      gs = (g + (union rs₁).groups) :: gs' := by
  induction rs generalizing g with
  | nil => cases hc : c.rest <;> simp [union, alts, run, inSet, hc] at h
  | cons p rs ih =>
    have hrun : (union (p :: rs)).run g c =
        ((p.2.run (g + 1) c).map fun f => (g :: f.1, f.2)) ++
          (union rs).run (g + (1 + p.2.groups)) c := by
      simp [union, alts, run, groups, Nat.add_comm]
    rw [hrun] at h
    cases hp : p.2.run (g + 1) c with
    | nil =>
      rw [hp] at h
      obtain ⟨rs₁, i, r, rs₂, gs', rfl, hrs₁, hr, hgs⟩ := ih h
      refine ⟨p :: rs₁, i, r, rs₂, gs', rfl, forall_mem_cons.mpr ⟨⟨_, hp⟩, hrs₁⟩, ?_, ?_⟩
      · rw [union_groups_cons, ← Nat.add_assoc g]
        exact hr
      · rw [union_groups_cons, ← Nat.add_assoc g]
        exact hgs
    | cons f fs =>
      rw [hp] at h
      simp only [map_cons, cons_append, head?_cons, Option.some.injEq,
        Prod.mk.injEq] at h
      obtain ⟨rfl, rfl⟩ := h
      exact ⟨[], p.1, p.2, rs, f.1, rfl, by simp, congrArg head? hp, rfl⟩

theorem union_labels {rs : List (ι × Regex)} {span : List Char} (h : (union rs).MatchesAt c gs span) :
    ∃ rs₁ i r rs₂ gs', rs = rs₁ ++ (i, r) :: rs₂ ∧ (∀ p ∈ rs₁, ∃ g, p.2.run g c = []) ∧
      (r.run (1 + (union rs₁).groups + 1) c).head? = some (gs', span) ∧
      gs = (1 + (union rs₁).groups) :: gs' ∧
      ∀ x ∈ gs, 1 ≤ x ∧ (labels rs)[x]? = some (some i) := by
  obtain ⟨rs₁, i, r, rs₂, gs', rfl, hrs₁, hr, rfl⟩ := union_run h
  refine ⟨rs₁, i, r, rs₂, gs', rfl, hrs₁, hr, rfl, fun x hx => ?_⟩
  have hlt : 1 + (union rs₁).groups ≤ x ∧ x ≤ 1 + (union rs₁).groups + r.groups := by
    rcases mem_cons.mp hx with rfl | hx
    · omega
    · have := r.run_groups _ c _ (mem_of_head? hr) x hx
      omega
  obtain ⟨j, rfl⟩ := Nat.exists_eq_add_of_le hlt.1
  exact ⟨by omega, labels_append (by omega)⟩

theorem owner_eq {labels : List (Option ι)} (hne : gs ≠ [])
    (h : ∀ x ∈ gs, 1 ≤ x ∧ labels[x]? = some (some i)) : owner labels gs = some i := by
  obtain ⟨x, hx⟩ := exists_mem_of_ne_nil gs hne
  obtain ⟨hle, hlx⟩ := h x hx
  have hlt : x < labels.length := (List.getElem?_eq_some_iff.mp hlx).1
  cases ho : owner labels gs with
  | none =>
    have := findSome?_eq_none_iff.mp ho x (mem_range'_1.mpr (by omega))
    simp [hx, hlx] at this
  | some j =>
    obtain ⟨y, -, hy⟩ := exists_of_findSome?_eq_some ho
    split at hy
    · rename_i hmem
      simpa [(h y hmem).2] using hy.symm
    · cases hy

theorem union_owner {rs : List (ι × Regex)} {span : List Char} (h : (union rs).MatchesAt c gs span) :
    ∃ rs₁ i r rs₂ g gs', rs = rs₁ ++ (i, r) :: rs₂ ∧ (r.run g c).head? = some (gs', span) ∧
      (∀ p ∈ rs₁, ∃ g, p.2.run g c = []) ∧ owner (labels rs) gs = some i := by
  obtain ⟨rs₁, i, r, rs₂, gs', hrs, hrs₁, hr, rfl, hgs⟩ := union_labels h
  exact ⟨rs₁, i, r, rs₂, _, gs', hrs, hr, hrs₁, owner_eq (cons_ne_nil _ _) hgs⟩

end Labels

section Lengths

variable {r : Regex}

theorem findAllFrom_length (n : Nat) : ∀ (ended : Bool) (c : Cursor),
    ((r.findAllFrom n ended c).flatMap fun m => m.skipped ++ m.span).length ≤ c.rest.length := by
  induction n with
  | zero => intro ended c; simp [findAllFrom]
  | succ n ih =>
    intro ended c
    rw [findAllFrom]
    split
    · simp
    · rename_i m hm
      obtain ⟨hr, hp⟩ := findFrom_some hm
      have hle : (m.skipped ++ m.span).length ≤ c.rest.length :=
        (prefix_append hp hr.prefix).length_le
      split
      · rename_i hempty
        have hlater := ih false (c.skip (c.rest.take 1))
        have hrest : (c.skip (c.rest.take 1)).rest.length ≤ c.rest.length := by simp
        by_cases hc : c.rest = []
        · cases ended <;> simp [hc, hempty]
        · cases ended <;> simpa [hc, hempty] using Nat.le_trans hlater hrest
      · have hlater := ih true (c.skip (m.skipped ++ m.span))
        simp only [flatMap_cons, length_append, Cursor.skip_rest, length_drop]
          at hlater hle ⊢
        omega

theorem removeAll_length (r : Regex) (text : List Char) : (r.removeAll text).length ≤ text.length := by
  have htotal := r.findAllFrom_length (text.length + 2) false (.start text)
  have hskipped : ∀ ms : List Match, (ms.flatMap Match.skipped).length ≤
      (ms.flatMap fun m => m.skipped ++ m.span).length := by
    intro ms
    induction ms with
    | nil => simp
    | cons m ms ih =>
      simp only [flatMap_cons, length_append] at ih ⊢
      omega
  have hle := hskipped (r.findAll text)
  change ((r.findAll text).flatMap fun m => m.skipped ++ m.span).length ≤ text.length at htotal
  rw [removeAll, length_append, length_drop]
  omega

theorem times_set_length {ranges : List (Char × Char)} (n : Nat) :
    ∀ g c, ∀ f ∈ (times (set negated ranges) n).run g c, f.2.length = n := by
  induction n with
  | zero => intro g c f hf; simp_all [times, run]
  | succ n ih =>
    intro g c f hf
    obtain ⟨e, he, hf⟩ := mem_flatMap.mp hf
    obtain ⟨e', he', rfl⟩ := mem_after.mp hf
    have := ih _ _ e' he'
    cases hc : c.rest with
    | nil => simp [run, hc] at he
    | cons x xs =>
      rw [run_set hc] at he
      split at he
      · obtain rfl := mem_singleton.mp he
        simp [this]
      · cases he

end Lengths

end Regex

end Morf.Lib
