import Morf.Apk.Components

/-! A manifest whose elements have any names, in document order, and its printed lines. -/

namespace Morf.Apk

open Morf.Lib
open Morf.Lib.Search
open List

inductive Node
  | mk (tag : Name) (line : Digits) (attrs : List Attr) (children : List Node)

namespace Node

def tag : Node → Name
  | .mk tag .. => tag

def line : Node → Digits
  | .mk _ line .. => line

def attrs : Node → List Attr
  | .mk _ _ attrs _ => attrs

def children : Node → List Node
  | .mk _ _ _ children => children

def begins (name : Name) (n : Node) : Bool := name.text.isPrefixOf n.tag.text

mutual

def subtree : Node → List Node
  | .mk tag line attrs children => .mk tag line attrs children :: forest children

def forest : List Node → List Node
  | [] => []
  | n :: ns => subtree n ++ forest ns

end

def inner (n : Node) : List Node := forest n.children

mutual

def placed (depth : Nat) : Node → List (Nat × Node)
  | .mk tag line attrs children => (depth, .mk tag line attrs children) :: placedIn (depth + 1) children

def placedIn (depth : Nat) : List Node → List (Nat × Node)
  | [] => []
  | n :: ns => placed depth n ++ placedIn depth ns

end

theorem subtree_eq (n : Node) : n.subtree = n :: n.inner := by
  obtain ⟨tag, line, attrs, children⟩ := n
  rw [subtree]
  rfl

theorem forest_eq (ns : List Node) : forest ns = ns.flatMap subtree := by
  induction ns with
  | nil => rfl
  | cons n ns ih => rw [forest, ih, flatMap_cons]

theorem inner_eq (n : Node) : n.inner = n.children.flatMap fun c => c :: c.inner := by
  rw [inner, forest_eq]
  exact flatMap_congr fun c _ => c.subtree_eq

theorem placed_eq (depth : Nat) (n : Node) :
    n.placed depth = (depth, n) :: placedIn (depth + 1) n.children := by
  obtain ⟨tag, line, attrs, children⟩ := n
  rw [placed]
  rfl

theorem placedIn_eq (depth : Nat) (ns : List Node) : placedIn depth ns = ns.flatMap (placed depth) := by
  induction ns with
  | nil => rfl
  | cons n ns ih => rw [placedIn, ih, flatMap_cons]

theorem childrenInduction {P : Node → Prop} (step : ∀ n, (∀ c ∈ n.children, P c) → P n) : ∀ n, P n
  | .mk _ _ _ children => step _ fun c (_ : c ∈ children) => childrenInduction step c

theorem map_snd_placed (depth : Nat) (n : Node) : (n.placed depth).map Prod.snd = n.subtree := by
  induction n using childrenInduction generalizing depth with
  | step n ih =>
    rw [placed_eq, placedIn_eq, map_cons, map_flatMap, subtree_eq, inner, forest_eq]
    exact congrArg _ (flatMap_congr fun c hc => ih c hc _)

theorem map_snd_placedIn (depth : Nat) (ns : List Node) :
    (placedIn depth ns).map Prod.snd = forest ns := by
  rw [placedIn_eq, map_flatMap, forest_eq]
  exact flatMap_congr fun c _ => map_snd_placed depth c

theorem le_of_placed (depth : Nat) (n : Node) : ∀ p ∈ n.placed depth, depth ≤ p.1 := by
  induction n using childrenInduction generalizing depth with
  | step n ih =>
    intro p hp
    rw [placed_eq, mem_cons, placedIn_eq, mem_flatMap] at hp
    rcases hp with rfl | ⟨c, hc, hp⟩
    · exact Nat.le_refl _
    · exact Nat.le_of_succ_le (ih c hc _ p hp)

theorem le_of_placedIn (depth : Nat) (ns : List Node) : ∀ p ∈ placedIn depth ns, depth ≤ p.1 := by
  intro p hp
  rw [placedIn_eq, mem_flatMap] at hp
  obtain ⟨c, -, hp⟩ := hp
  exact le_of_placed depth c p hp

theorem self_mem_subtree (n : Node) : n ∈ n.subtree := by
  rw [subtree_eq]
  exact mem_cons_self

theorem inner_subset_subtree (n : Node) : n.inner ⊆ n.subtree := by
  rw [subtree_eq]
  exact subset_cons_self _ _

theorem subtree_subset_inner {n : Node} (hc : c ∈ n.children) : c.subtree ⊆ n.inner := by
  intro m hm
  rw [inner, forest_eq]
  exact mem_flatMap.mpr ⟨c, hc, hm⟩

theorem subtree_subset (l : Node) {m : Node} (hm : m ∈ l.subtree) : m.subtree ⊆ l.subtree := by
  induction l using childrenInduction with
  | step l ih =>
    rw [subtree_eq, mem_cons, inner, forest_eq, mem_flatMap] at hm
    rcases hm with rfl | ⟨c, hc, hm⟩
    · exact Subset.refl _
    · exact Subset.trans (ih c hc hm) (Subset.trans (subtree_subset_inner hc) l.inner_subset_subtree)

theorem exists_parent (l : Node) {n : Node} (hn : n ∈ l.inner) : ∃ p ∈ l.subtree, n ∈ p.children := by
  induction l using childrenInduction with
  | step l ih =>
    rw [inner_eq, mem_flatMap] at hn
    obtain ⟨c, hc, hn⟩ := hn
    rcases mem_cons.mp hn with rfl | hn
    · exact ⟨l, l.self_mem_subtree, hc⟩
    · obtain ⟨p, hp, hn⟩ := ih c hc hn
      exact ⟨p, l.inner_subset_subtree (subtree_subset_inner hc hp), hn⟩

theorem mem_subtree_of_placed {n : Node} (h : p ∈ n.placed depth) : p.2 ∈ n.subtree := by
  rw [← map_snd_placed depth n]
  exact mem_map_of_mem h

end Node

def headingLine (p : Nat × Node) : Line := elementLine p.1 p.2.tag p.2.line

def attrLines (p : Nat × Node) : List Line := p.2.attrs.map (attrLine (p.1 + 1))

def linesOf (ps : List (Nat × Node)) : List Line := ps.flatMap fun p => headingLine p :: attrLines p

def textOf (ps : List (Nat × Node)) : Text := joinLines ((linesOf ps).map Line.print)

def Node.block (p : Nat × Node) : Text := textOf (p.2.placed p.1)

theorem headingLine_begins (name : Name) (p : Nat × Node) :
    (headingLine p).Begins name.text ↔ p.2.begins name = true := by
  rw [headingLine, elementLine_begins p.1 (name.not_mem (by decide)), Node.begins,
    List.isPrefixOf_iff_prefix]

theorem linesOf_not_begins (h : ∀ p ∈ ps, p.2.begins name = false) :
    ∀ l ∈ linesOf ps, ¬ l.Begins name.text := by
  intro l hl
  obtain ⟨p, hp, hl⟩ := mem_flatMap.mp hl
  rcases mem_cons.mp hl with rfl | hl
  · rw [headingLine_begins, h p hp]
    exact Bool.false_ne_true
  · obtain ⟨a, -, rfl⟩ := mem_map.mp hl
    exact attrLine_not_begins _ _ a

theorem le_depth_of_linesOf (h : ∀ p ∈ ps, depth ≤ p.1) : ∀ l ∈ linesOf ps, depth ≤ l.depth := by
  intro l hl
  obtain ⟨p, hp, hl⟩ := mem_flatMap.mp hl
  rcases mem_cons.mp hl with rfl | hl
  · exact h p hp
  · obtain ⟨a, -, rfl⟩ := mem_map.mp hl
    exact Nat.le_succ_of_le (h p hp)

theorem linesOf_append (ps qs : List (Nat × Node)) : linesOf (ps ++ qs) = linesOf ps ++ linesOf qs :=
  flatMap_append

theorem linesOf_cons (p : Nat × Node) (ps : List (Nat × Node)) :
    linesOf (p :: ps) = headingLine p :: (attrLines p ++ linesOf ps) := flatMap_cons

theorem splitOn_textOf (h : ps ≠ []) : (textOf ps).splitOn '\n' = (linesOf ps).map Line.print := by
  refine splitOn_intercalate '\n' ?_ ?_
  · intro l hl
    obtain ⟨l, -, rfl⟩ := mem_map.mp hl
    exact l.newline_not_mem_print
  · obtain ⟨p, ps, rfl⟩ := exists_cons_of_ne_nil h
    simp [linesOf]

def tagMark (name : Name) : Text := ['E', ':', ' '] ++ name.text

theorem tagMark_eq (name : Name) : tagMark name = 'E' :: ':' :: ' ' :: name.text := rfl

theorem tagMark_not_mem (hc : c ∈ ['=', '"', '\n']) (name : Name) : c ∉ tagMark name := by
  have hsep : ∀ c ∈ ['=', '"', '\n'], isNameChar c = false ∧ c ∉ ['E', ':', ' '] := by
    simp only [forall_mem_cons, not_mem_nil, false_imp_iff, implies_true]
    decide
  rw [tagMark, mem_append, not_or]
  exact ⟨(hsep c hc).2, name.not_mem (hsep c hc).1⟩

theorem not_infix_of_lacks {o w : Text} (hx : x ∈ o) (hw : x ∉ w) : ¬ o <:+: w :=
  fun h => hw (h.subset hx)

theorem indent_lacks (hx : x ≠ ' ') (n : Nat) : x ∉ replicate n ' ' :=
  fun h => hx (eq_of_mem_replicate h)

theorem contains_headingLine (name : Name) (p : Nat × Node) :
    Text.contains (tagMark name) (headingLine p).print = p.2.begins name := by
  have hrest : ¬ tagMark name <:+: ':' :: ' ' :: (p.2.tag.text ++ " (line=".toList ++ p.2.line.text ++ [')']) := by
    have hsplit : ':' :: ' ' :: (p.2.tag.text ++ " (line=".toList ++ p.2.line.text ++ [')']) =
        [':', ' '] ++ ((p.2.tag.text ++ " (line".toList) ++ '=' :: (p.2.line.text ++ [')'])) := by simp
    have hcolon : ':' ∈ tagMark name := by simp [tagMark_eq]
    rw [hsplit, tagMark_eq, infix_lacks_head (by decide), ← tagMark_eq,
      infix_append_cons (by simp [tagMark_eq]) (tagMark_not_mem (by decide) name), not_or]
    refine ⟨not_infix_of_lacks hcolon ?_, not_infix_of_lacks hcolon ?_⟩
    · rw [mem_append, not_or]
      exact ⟨p.2.tag.not_mem (by decide), by decide⟩
    · rw [mem_append, not_or]
      exact ⟨p.2.line.not_mem (by decide), by decide⟩
  have htext : (headingLine p).text =
      'E' :: ':' :: ' ' :: (p.2.tag.text ++ " (line=".toList ++ p.2.line.text ++ [')']) := by
    simp [headingLine, elementLine, elementText]
  rw [Bool.eq_iff_iff, contains_iff, ← headingLine_begins, Line.print, tagMark_eq,
    infix_lacks_head (indent_lacks (by decide) _), ← tagMark_eq, htext, infix_cons_iff,
    or_iff_left hrest, ← htext]
  rfl

theorem Value.infix_text {o : Text} (hq : '"' ∉ o) (hx : x ∈ o) (hraw : x ∉ rawText)
    (hparen : x ≠ ')') (h : o <:+: (Value.string v).text) : o <:+: v.text := by
  have hne : o ≠ [] := ne_nil_of_mem hx
  have htext : (Value.string v).text =
      [] ++ '"' :: (v.text ++ '"' :: (rawText ++ '"' :: (v.text ++ '"' :: [')']))) := by
    simp [Value.text]
  rw [htext, infix_append_cons hne hq, infix_append_cons hne hq, infix_append_cons hne hq,
    infix_append_cons hne hq] at h
  rcases h with h | h | h | h | h
  · exact absurd (infix_nil.mp h) hne
  · exact h
  · exact absurd h (not_infix_of_lacks hx hraw)
  · exact h
  · exact absurd h (not_infix_of_lacks hx (by simpa using hparen))

theorem contains_attrLine (h : ∀ v, a.value = .string v → ¬ tagMark name <:+: v.text) (depth : Nat) :
    Text.contains (tagMark name) (attrLine depth a).print = false := by
  have hE : 'E' ∈ tagMark name := by simp [tagMark_eq]
  have hspace : ' ' ∈ tagMark name := by simp [tagMark_eq]
  have htext : (attrLine depth a).print =
      (replicate (2 * depth) ' ' ++ ['A', ':', ' ']) ++ (a.key.text ++ '=' :: a.value.text) := by
    simp [Line.print, attrLine, Attr.text]
  have hindent : 'E' ∉ replicate (2 * depth) ' ' ++ ['A', ':', ' '] := by
    rw [mem_append, not_or]
    exact ⟨indent_lacks (by decide) _, by decide⟩
  have hkey : ' ' ∉ a.key.text := a.key.not_mem (by decide) (by decide) (by decide)
  have hvalue : ¬ tagMark name <:+: a.value.text := by
    cases hv : a.value with
    | string v =>
      exact fun hin => h v hv (Value.infix_text (tagMark_not_mem (by decide) name) hE (by decide)
        (by decide) hin)
    | typed type data =>
      refine not_infix_of_lacks hE ?_
      simp only [Value.text, mem_append, not_or]
      exact ⟨⟨⟨by decide, type.not_mem (by decide)⟩, by decide⟩, data.not_mem (by decide)⟩
  rw [← Bool.not_eq_true, contains_iff, htext, tagMark_eq, infix_lacks_head hindent, ← tagMark_eq,
    infix_append_cons (ne_nil_of_mem hE) (tagMark_not_mem (by decide) name), not_or]
  exact ⟨not_infix_of_lacks hspace hkey, hvalue⟩

end Morf.Apk
