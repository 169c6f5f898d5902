import Morf.Apk.Agreement

/-! The segmentation of a printed manifest: the blocks that `extractComponentBlocks` cuts out for a
type of components, and the filters that `extractIntentFilters` reads in them. -/

namespace Morf.Apk

open Morf.Lib
open Morf.Lib.Search
open Morf.Apk.Filters
open List Node

theorem valid_application : "application".toList ≠ [] ∧ "application".toList.all isNameChar = true := by
  decide

theorem valid_provider : "provider".toList ≠ [] ∧ "provider".toList.all isNameChar = true := by decide

def applicationName : Name := ⟨"application".toList, valid_application⟩

def activityName : Name := ⟨"activity".toList, by decide⟩

def serviceName : Name := ⟨"service".toList, by decide⟩

def receiverName : Name := ⟨"receiver".toList, by decide⟩

def providerName : Name := ⟨"provider".toList, valid_provider⟩

def activityAliasName : Name := ⟨"activity-alias".toList, by decide⟩

def componentTypes : List Name :=
  [activityName, serviceName, receiverName, providerName, activityAliasName]

def Node.isComponent (n : Node) : Bool := componentTypes.any n.begins

def Node.hasName (n : Node) : Bool :=
  n.attrs.any fun a => match a.key with
    | .android name _ => decide (name = nameKey)
    | .other .. => false

/-- A manifest with at most one application, in which components are children of the application
and filters of a component are children of the component. Components, actions and categories have
names, only filters and their children carry the attributes of a filter, and no value looks like
the start of an element or a part of an attribute. -/
structure Document where
  spaces : List (Name × Word)
  root : Node
  manifest : root.begins applicationName = false ∧ root.isComponent = false
  single : (root.children.filter (·.begins applicationName)).length ≤ 1
  application : ∀ n ∈ root.children.flatMap inner, n.begins applicationName = false
  outside : ∀ c ∈ root.children, c.begins applicationName = false →
    ∀ n ∈ c.subtree, n.isComponent = false
  inside : ∀ c ∈ root.children, c.begins applicationName = true →
    ∀ n ∈ c.children.flatMap inner, n.isComponent = false
  named : ∀ n ∈ root.subtree, n.isComponent = true → n.hasName = true
  first : ∀ n ∈ root.subtree, n.begins actionTag = true ∨ n.begins categoryTag = true → Named n
  filters : ∀ n ∈ root.subtree, n.isComponent = true →
    ∀ m ∈ n.children.flatMap inner, m.begins intentFilterTag = false
  carriers : ∀ p ∈ root.subtree, p.begins intentFilterTag = false →
    ∀ c ∈ p.children, c.begins intentFilterTag = false → carries c = false
  plain : ∀ n ∈ root.subtree, ∀ a ∈ n.attrs, Plain a

def Node.parts (depth : Nat) (c : Node) : Line × List Line :=
  (headingLine (depth, c), attrLines (depth, c) ++ linesOf (placedIn (depth + 1) c.children))

theorem Node.parts_eq (depth : Nat) (c : Node) :
    (c.parts depth).1 :: (c.parts depth).2 = linesOf (c.placed depth) := by
  rw [placed_eq]
  exact (linesOf_cons _ _).symm

namespace Document

def spaceLines : Nat → List (Name × Word) → List Line
  | _, [] => []
  | n, (bound, uri) :: spaces => spaceLine n bound uri :: spaceLines (n + 1) spaces

variable (d : Document)

def placed : List (Nat × Node) := d.root.placed d.spaces.length

def lines : List Line := spaceLines 0 d.spaces ++ linesOf d.placed

def xmlTree : Text := d.lines.flatMap fun l => l.print ++ ['\n']

def elementsOf (ty : Name) : List (Nat × Node) := d.placed.filter (·.2.begins ty)

section Elements

variable {d}

theorem isComponent_of_begins (hty : ty ∈ componentTypes) {n : Node} (h : n.begins ty = true) :
    n.isComponent = true := any_eq_true.mpr ⟨ty, hty, h⟩

theorem not_begins_of_isComponent (hty : ty ∈ componentTypes) {n : Node} (h : n.isComponent = false) :
    n.begins ty = false := by
  rw [← Bool.not_eq_true]
  intro hb
  rw [isComponent_of_begins hty hb] at h
  cases h

theorem spaceLines_not_begins (w : Text) (n : Nat) (spaces : List (Name × Word)) :
    ∀ l ∈ spaceLines n spaces, ¬ l.Begins w := by
  induction spaces generalizing n with
  | nil => exact fun _ hl => nomatch hl
  | cons s spaces ih => exact forall_mem_cons.mpr ⟨spaceLine_not_begins _ _ _ _, ih (n + 1)⟩

theorem filter_placed_of_none (h : ∀ n ∈ ns, ∀ m ∈ n.subtree, m.begins ty = false) :
    (placedIn depth ns).filter (·.2.begins ty) = [] := by
  refine filter_eq_nil_iff.mpr fun p hp => ?_
  rw [placedIn_eq] at hp
  obtain ⟨n, hn, hp⟩ := mem_flatMap.mp hp
  rw [h n hn p.2 (mem_subtree_of_placed hp)]
  exact Bool.false_ne_true

theorem filter_placed_of_inner (h : ∀ n ∈ ns.flatMap inner, n.begins ty = false) :
    (placedIn depth ns).filter (·.2.begins ty) =
      (ns.filter (·.begins ty)).map fun n => (depth, n) := by
  induction ns with
  | nil => rfl
  | cons n ns ih =>
    rw [flatMap_cons, forall_mem_append] at h
    have hinner : (placedIn (depth + 1) n.children).filter (·.2.begins ty) = [] :=
      filter_placed_of_none fun c hc m hm => h.1 m (subtree_subset_inner hc hm)
    rw [placedIn, placed_eq, cons_append, filter_cons, filter_append, hinner,
      nil_append, ih h.2, filter_cons]
    split <;> rfl

theorem subtree_subset_root (hc : c ∈ d.root.children) : c.subtree ⊆ d.root.subtree :=
  Subset.trans (subtree_subset_inner hc) d.root.inner_subset_subtree

end Elements

section Application

variable {d} {ty : Name} {before after : List Node} {app : Node}

theorem not_begins_root (hty : ty ∈ componentTypes) : d.root.begins ty = false :=
  not_begins_of_isComponent hty d.manifest.2

theorem elementsOf_eq (hty : ty ∈ componentTypes) :
    d.elementsOf ty =
      (placedIn (d.spaces.length + 1) d.root.children).filter (·.2.begins ty) := by
  rw [elementsOf, placed, placed_eq, filter_cons, not_begins_root hty,
    if_neg Bool.false_ne_true]

theorem elementsOf_of_none (hty : ty ∈ componentTypes)
    (h : ∀ c ∈ d.root.children, c.begins applicationName = false) : d.elementsOf ty = [] := by
  rw [elementsOf_eq hty]
  exact filter_placed_of_none fun c hc n hn => not_begins_of_isComponent hty (d.outside c hc (h c hc) n hn)

structure Split (d : Document) (before : List Node) (app : Node) (after : List Node) : Prop where
  children : d.root.children = before ++ app :: after
  app : app.begins applicationName = true
  others : ∀ c ∈ before ++ after, c.begins applicationName = false

theorem split_or (d : Document) : (∀ c ∈ d.root.children, c.begins applicationName = false) ∨
    ∃ before app after, Split d before app after := by
  by_cases h : ∀ c ∈ d.root.children, c.begins applicationName = false
  · exact .inl h
  · refine .inr ?_
    obtain ⟨app, happ, hb⟩ : ∃ app ∈ d.root.children, app.begins applicationName = true := by
      simpa using h
    obtain ⟨before, after, hchildren⟩ := append_of_mem happ
    have hsingle := d.single
    rw [hchildren, filter_append, filter_cons, if_pos hb, length_append,
      length_cons] at hsingle
    have hbefore : before.filter (·.begins applicationName) = [] := length_eq_zero_iff.mp (by omega)
    have hafter : after.filter (·.begins applicationName) = [] := length_eq_zero_iff.mp (by omega)
    refine ⟨before, app, after, hchildren, hb, fun c hc => ?_⟩
    rw [← Bool.not_eq_true]
    rcases mem_append.mp hc with hc | hc
    · exact filter_eq_nil_iff.mp hbefore c hc
    · exact filter_eq_nil_iff.mp hafter c hc

namespace Split

variable (h : Split d before app after)
include h

theorem mem_others : ∀ c ∈ before ++ after, c ∈ d.root.children := by
  intro c hc
  rw [h.children]
  rcases mem_append.mp hc with hc | hc
  · exact mem_append_left _ hc
  · exact mem_append_right _ (mem_cons_of_mem app hc)

theorem mem_app : app ∈ d.root.children := by
  rw [h.children]
  exact mem_append_right _ mem_cons_self

theorem placed_eq : d.placed = (d.spaces.length, d.root) ::
    (placedIn (d.spaces.length + 1) before ++ (d.spaces.length + 1, app) ::
      (placedIn (d.spaces.length + 2) app.children ++
        Node.placedIn (d.spaces.length + 1) after)) := by
  rw [placed, Node.placed_eq, h.children, Node.placedIn_eq, Node.placedIn_eq,
    Node.placedIn_eq (d.spaces.length + 1) after, flatMap_append, flatMap_cons,
    Node.placed_eq _ app]
  rfl

theorem not_component (hty : ty ∈ componentTypes) :
    ∀ c ∈ before ++ after, ∀ n ∈ c.subtree, n.begins ty = false := fun c hc n hn =>
  not_begins_of_isComponent hty (d.outside c (h.mem_others c hc) (h.others c hc) n hn)

theorem not_application : ∀ c ∈ before ++ after, ∀ n ∈ c.subtree, n.begins applicationName = false := by
  intro c hc n hn
  rw [c.subtree_eq, mem_cons] at hn
  rcases hn with rfl | hn
  · exact h.others n hc
  · exact d.application n (mem_flatMap.mpr ⟨c, h.mem_others c hc, hn⟩)

theorem not_component_app (hty : ty ∈ componentTypes) : app.begins ty = false := by
  have hapart : ∀ k ∈ componentTypes, ¬ applicationName.text <+: k.text ∧
      ¬ k.text <+: applicationName.text := by decide
  exact begins_of_begins h.app (hapart ty hty).1 (hapart ty hty).2

theorem not_component_inner (hty : ty ∈ componentTypes) :
    ∀ n ∈ app.children.flatMap inner, n.begins ty = false := fun n hn =>
  not_begins_of_isComponent hty (d.inside app h.mem_app h.app n hn)

theorem not_application_inner : ∀ n ∈ app.inner, n.begins applicationName = false := fun n hn =>
  d.application n (mem_flatMap.mpr ⟨app, h.mem_app, hn⟩)

theorem elementsOf_eq (hty : ty ∈ componentTypes) : d.elementsOf ty =
    (app.children.filter (·.begins ty)).map fun n => (d.spaces.length + 2, n) := by
  rw [elementsOf, h.placed_eq, filter_cons, not_begins_root hty, filter_append,
    filter_cons, h.not_component_app hty, filter_append,
    filter_placed_of_none fun c hc => h.not_component hty c (mem_append_left _ hc),
    filter_placed_of_none fun c hc => h.not_component hty c (mem_append_right _ hc),
    filter_placed_of_inner (h.not_component_inner hty)]
  simp

theorem component (hty : ty ∈ componentTypes) (hc : c ∈ app.children) :
    BlockState.Component ty.text (d.spaces.length + 1) (c.parts (d.spaces.length + 2)).1
      (c.parts (d.spaces.length + 2)).2 := by
  have hplaced : ∀ p ∈ placedIn (d.spaces.length + 3) c.children, p.2 ∈ c.inner := by
    intro p hp
    rw [Node.inner, ← map_snd_placedIn (d.spaces.length + 3)]
    exact mem_map_of_mem hp
  have hinner : ∀ n ∈ c.inner, n ∈ app.inner := fun n hn =>
    subtree_subset_inner hc (c.inner_subset_subtree hn)
  refine ⟨rfl, elementLine_isElement _ _ _, ?_, fun l hl => ?_⟩
  · refine fun hb => Bool.false_ne_true ?_
    rw [← (headingLine_begins applicationName _).mp hb]
    exact (h.not_application_inner c (subtree_subset_inner hc c.self_mem_subtree)).symm
  · rcases mem_append.mp hl with hl | hl
    · exact BlockState.below_attrs _ _ _ l hl
    · refine ⟨le_depth_of_linesOf (le_of_placedIn _ _) l hl,
        linesOf_not_begins (fun p hp => h.not_application_inner p.2 (hinner _ (hplaced p hp))) l hl,
        linesOf_not_begins (fun p hp => h.not_component_inner hty p.2 ?_) l hl⟩
      exact mem_flatMap.mpr ⟨c, hc, hplaced p hp⟩

end Split

theorem lines_outside (h : Split d before app after) (hns : ∀ c ∈ ns, c ∈ before ++ after) :
    ∀ p ∈ placedIn (d.spaces.length + 1) ns, p.2.begins applicationName = false := by
  intro p hp
  rw [placedIn_eq] at hp
  obtain ⟨c, hc, hp⟩ := mem_flatMap.mp hp
  exact h.not_application c (hns c hc) p.2 (mem_subtree_of_placed hp)

def outline (h : Split d before app after) (hty : ty ∈ componentTypes) : Outline ty.text where
  depth := d.spaces.length + 1
  before := spaceLines 0 d.spaces ++
    linesOf ((d.spaces.length, d.root) :: placedIn (d.spaces.length + 1) before)
  app := headingLine (d.spaces.length + 1, app)
  attrs := attrLines (d.spaces.length + 1, app)
  components := app.children.map (Node.parts (d.spaces.length + 2))
  after := linesOf (placedIn (d.spaces.length + 1) after)
  outside := by
    intro l hl
    rcases List.mem_append.mp hl with hl | hl
    · rcases List.mem_append.mp hl with hl | hl
      · exact spaceLines_not_begins _ _ _ l hl
      · refine @linesOf_not_begins _ applicationName (List.forall_mem_cons.mpr ⟨d.manifest.1, ?_⟩) l hl
        exact lines_outside h fun c hc => List.mem_append_left _ hc
    · exact @linesOf_not_begins _ applicationName
        (lines_outside h fun c hc => List.mem_append_right _ hc) l hl
  app_begins := (headingLine_begins applicationName _).mpr h.app
  app_depth := rfl
  attrs_below := BlockState.below_attrs _ _ _
  component := by
    intro c hc
    obtain ⟨n, hn, rfl⟩ := List.mem_map.mp hc
    exact h.component hty hn
  after_head := by
    intro l hl
    cases after with
    | nil => cases hl
    | cons n ns =>
      rw [placedIn, placed_eq, List.cons_append, linesOf_cons] at hl
      cases hl
      exact ⟨elementLine_isElement _ _ _, rfl⟩

theorem lines_outline (h : Split d before app after) (hty : ty ∈ componentTypes) :
    (outline h hty).lines = d.lines := by
  have hcomponents : (app.children.map (Node.parts (d.spaces.length + 2))).flatMap (fun c => c.1 :: c.2) =
      linesOf (placedIn (d.spaces.length + 2) app.children) := by
    rw [flatMap_map, placedIn_eq, linesOf, flatMap_assoc]
    exact flatMap_congr fun c _ => c.parts_eq _
  simp only [Outline.lines, outline]
  rw [hcomponents, lines, h.placed_eq, linesOf_cons, linesOf_cons, linesOf_append, linesOf_cons,
    linesOf_append]
  simp

theorem splitOn_xmlTree (d : Document) : d.xmlTree.splitOn '\n' = d.lines.map Line.print ++ [[]] :=
  Line.splitOn_print d.lines

theorem keep_block (h : p.2.hasName = true) :
    BlockState.keep ((linesOf (p.2.placed p.1)).map Line.print) = [block p] := by
  obtain ⟨a, ha, hkey⟩ := any_eq_true.mp h
  have hname : "android:name".toList <:+: a.text := by
    obtain ⟨key, value⟩ := a
    cases key with
    | other space name foreign => cases hkey
    | android name id =>
      obtain rfl := of_decide_eq_true hkey
      have htext : (⟨.android nameKey id, value⟩ : Attr).text =
          "android:name".toList ++ (['(', '0', 'x'] ++ id.text ++ [')'] ++ ['='] ++ value.text) := by
        have hopen : androidText ++ nameKey.text = "android:name".toList := by decide
        rw [← hopen]
        simp [Attr.text, Key.text]
      rw [htext]
      exact (List.prefix_append _ _).isInfix
  have hline : (attrLine (p.1 + 1) a).print ∈ (linesOf (p.2.placed p.1)).map Line.print := by
    refine mem_map_of_mem ?_
    rw [placed_eq, linesOf_cons]
    exact mem_cons_of_mem _ (mem_append_left _ (mem_map_of_mem ha))
  have hblock : "android:name".toList <:+: joinLines ((linesOf (p.2.placed p.1)).map Line.print) := by
    have hattr : a.text <:+: (attrLine (p.1 + 1) a).print := by
      rw [Line.print, attrLine, ← append_assoc]
      exact (suffix_append _ _).isInfix
    exact hname.trans (hattr.trans (Regex.infix_intercalate hline))
  rw [BlockState.keep]
  exact if_pos (contains_iff.mpr hblock)

theorem extractComponentBlocks_xmlTree (d : Document) (hty : ty ∈ componentTypes) :
    extractComponentBlocks (d.xmlTree.splitOn '\n') ty.text = (d.elementsOf ty).map block := by
  rw [splitOn_xmlTree]
  rcases d.split_or with hnone | ⟨before, app, after, h⟩
  · have happ : ∀ p ∈ d.placed, p.2.begins applicationName = false := by
      intro p hp
      rw [placed, placed_eq, mem_cons, placedIn_eq] at hp
      rcases hp with rfl | hp
      · exact d.manifest.1
      · obtain ⟨c, hc, hp⟩ := mem_flatMap.mp hp
        have hmem := mem_subtree_of_placed hp
        rw [c.subtree_eq, mem_cons] at hmem
        rcases hmem with heq | hmem
        · rw [heq]
          exact hnone c hc
        · exact d.application p.2 (mem_flatMap.mpr ⟨c, hc, hmem⟩)
    have hlines : ∀ l ∈ d.lines, ¬ l.Begins applicationText := by
      intro l hl
      rcases mem_append.mp hl with hl | hl
      · exact spaceLines_not_begins _ _ _ l hl
      · exact @linesOf_not_begins _ applicationName happ l hl
    rw [extractComponentBlocks, BlockState.pending_eq, foldl_append,
      BlockState.foldl_outside hlines rfl, elementsOf_of_none hty hnone]
    rfl
  · have hfilter : (app.children.filter fun c =>
        decide ((c.parts (d.spaces.length + 2)).1.Begins ty.text)) = app.children.filter (·.begins ty) := by
      refine filter_congr fun c _ => ?_
      rw [Bool.eq_iff_iff, decide_eq_true_iff]
      exact headingLine_begins ty _
    have hkeep : ∀ c ∈ app.children.filter (·.begins ty), BlockState.keep
        (((c.parts (d.spaces.length + 2)).1 :: (c.parts (d.spaces.length + 2)).2).map Line.print) =
        [block (d.spaces.length + 2, c)] := by
      intro c hc
      obtain ⟨hc, hb⟩ := mem_filter.mp hc
      have hroot : c ∈ d.root.subtree := subtree_subset_root h.mem_app
        (app.inner_subset_subtree (subtree_subset_inner hc c.self_mem_subtree))
      rw [← keep_block (d.named c hroot (isComponent_of_begins hty hb)), c.parts_eq]
    rw [← lines_outline h hty, Outline.extractComponentBlocks_lines, h.elementsOf_eq hty, outline,
      filter_map, flatMap_map, map_map]
    change (app.children.filter fun c =>
      decide ((c.parts (d.spaces.length + 2)).1.Begins ty.text)).flatMap _ = _
    rw [hfilter, flatMap_congr hkeep]
    exact map_eq_flatMap.symm

end Application

section Exactness

variable {d}

theorem nameOf_of_named (hplain : ∀ a ∈ n.attrs, Plain a) (h : Named n) :
    (nameOf n).isSome = true := by
  obtain ⟨id, v, as, hattrs⟩ := h
  have hplain : Plain ⟨.android nameKey id, .string v⟩ := hplain _ (hattrs ▸ mem_cons_self)
  rw [nameOf_of_attrs hplain.1 hattrs]
  rfl

theorem carries_inner {n : Node} (hn : n.subtree ⊆ d.root.subtree)
    (hfilters : ∀ m ∈ n.subtree, m.begins intentFilterTag = false) :
    ∀ m ∈ n.inner, carries m = false := by
  intro m hm
  obtain ⟨q, hq, hchild⟩ := n.exists_parent hm
  exact d.carriers q (hn hq) (hfilters q hq) m hchild (hfilters m (n.inner_subset_subtree hm))

theorem componentInPlace (hty : ty ∈ componentTypes) (hp : p ∈ d.elementsOf ty) :
    ComponentInPlace p.2 := by
  obtain ⟨hplaced, hb⟩ := mem_filter.mp hp
  have hroot : p.2 ∈ d.root.subtree := mem_subtree_of_placed hplaced
  have hcomp := isComponent_of_begins hty hb
  have hfilters := d.filters p.2 hroot hcomp
  have hsub : p.2.subtree ⊆ d.root.subtree := subtree_subset _ hroot
  have hinner : p.2.inner ⊆ d.root.subtree := Subset.trans p.2.inner_subset_subtree hsub
  have htag : p.2.begins intentFilterTag = false := by
    have hapart : ∀ k ∈ componentTypes, ¬ k.text <+: intentFilterTag.text ∧
        ¬ intentFilterTag.text <+: k.text := by decide
    exact begins_of_begins hb (hapart ty hty).1 (hapart ty hty).2
  refine ⟨htag, hfilters, fun s hs => ?_⟩
  obtain ⟨hfirst, hmem, hrest⟩ := mem_segments hs
  have hlater : ∀ n ∈ s.1.inner ++ s.2.flatMap subtree, n ∈ d.root.subtree := by
    intro n hn
    refine hinner ?_
    rcases mem_append.mp hn with hn | hn
    · exact subtree_subset_inner hmem (s.1.inner_subset_subtree hn)
    · obtain ⟨m, hm, hn⟩ := mem_flatMap.mp hn
      exact subtree_subset_inner (hrest m hm).1 hn
  refine ⟨hfirst, fun n hn hact => ?_, fun n hn hcat => ?_, fun n hn => ?_⟩
  · exact nameOf_of_named (d.plain n (hlater n hn)) (d.first n (hlater n hn) (.inl hact))
  · exact nameOf_of_named (d.plain n (hlater n hn)) (d.first n (hlater n hn) (.inr hcat))
  · rcases mem_append.mp hn with hn | hn
    · -- below a child of the filter
      obtain ⟨c, hc, hn⟩ := mem_flatMap.mp hn
      have hcs : c.subtree ⊆ s.1.inner := subtree_subset_inner hc
      refine carries_inner (fun m hm => hlater m (mem_append_left _ (hcs hm))) (fun m hm => ?_) n hn
      exact hfilters m (mem_flatMap.mpr ⟨s.1, hmem, hcs hm⟩)
    · -- in a sibling that is no filter
      obtain ⟨m, hm, hn⟩ := mem_flatMap.mp hn
      obtain ⟨hchild, hnot⟩ := hrest m hm
      rw [m.subtree_eq, mem_cons] at hn
      rcases hn with rfl | hn
      · exact d.carriers p.2 hroot htag n hchild hnot
      · refine carries_inner (fun k hk => hlater k (mem_append_right _
          (mem_flatMap.mpr ⟨m, hm, hk⟩))) (fun k hk => ?_) n hn
        rw [m.subtree_eq, mem_cons] at hk
        rcases hk with rfl | hk
        · exact hnot
        · exact hfilters k (mem_flatMap.mpr ⟨m, hchild, hk⟩)

theorem readable (hty : ty ∈ componentTypes) (hp : p ∈ d.elementsOf ty) :
    Readable (p.2.placed p.1) := by
  obtain ⟨hplaced, -⟩ := mem_filter.mp hp
  have hroot : p.2 ∈ d.root.subtree := mem_subtree_of_placed hplaced
  have hmem : ∀ q ∈ p.2.placed p.1, q.2 ∈ d.root.subtree := fun q hq =>
    subtree_subset _ hroot (mem_subtree_of_placed hq)
  have hdepth : 1 ≤ p.1 := by
    rw [elementsOf_eq hty] at hp
    have := le_of_placedIn _ _ p (mem_of_mem_filter hp)
    omega
  refine ⟨fun q hq => Nat.le_trans hdepth (le_of_placed _ _ q hq), fun a ha => ?_,
    fun q hq hact => d.first q.2 (hmem q hq) (.inl hact),
    fun q hq hcat => d.first q.2 (hmem q hq) (.inr hcat)⟩
  rw [map_snd_placed] at ha
  obtain ⟨n, hn, ha⟩ := mem_flatMap.mp ha
  exact d.plain n (subtree_subset _ hroot hn) a ha

/-- The blocks are those of the elements of the type, and in each the filters of the element are
read exactly if nothing that follows a filter passes for a part of it. -/
theorem segmentation_exact_iff (d : Document) (ty : Name) (hty : ty ∈ componentTypes) :
    (extractComponentBlocks (d.xmlTree.splitOn '\n') ty.text = (d.elementsOf ty).map block ∧
      ∀ p ∈ d.elementsOf ty,
        (extractIntentFilters (block p)).map (·.toContents) = ownFilters p.2) ↔
    ∀ p ∈ d.elementsOf ty, ∀ s ∈ segments (·.begins intentFilterTag) p.2.children,
      Apart s.1 s.2 := by
  rw [and_iff_right (d.extractComponentBlocks_xmlTree hty)]
  exact forall₂_congr fun p hp =>
    (componentInPlace hty hp).filters_iff (readable hty hp) (map_snd_placed _ _)

theorem valid_manifest : "manifest".toList ≠ [] ∧ "manifest".toList.all isNameChar = true := by decide

theorem valid_nameID : "01010003".toList ≠ [] ∧ "01010003".toList.all isHexDigit = true := by decide

theorem valid_line (h : isHexDigit c = true) : [c] ≠ [] ∧ [c].all isHexDigit = true :=
  ⟨cons_ne_nil c [], all_eq_true.mpr fun _ hx => mem_singleton.mp hx ▸ h⟩

def linkFilter (attrs : List Attr) : Node :=
  .mk intentFilterTag ⟨['9'], valid_line rfl⟩ []
    [.mk dataTag ⟨['a'], by decide⟩
      [⟨.android hostKey ⟨"01010028".toList, by decide⟩, .string ⟨"shop.example".toList, by decide⟩⟩] [],
    .mk actionTag ⟨['b'], by decide⟩
      (⟨.android nameKey ⟨"01010003".toList, valid_nameID⟩, .string ⟨"VIEW".toList, by decide⟩⟩ :: attrs) []]

def linkActivity (attrs : List Attr) : Node :=
  .mk activityName ⟨['7'], valid_line rfl⟩
    [⟨.android nameKey ⟨"01010003".toList, valid_nameID⟩, .string ⟨"Shop".toList, by decide⟩⟩]
    [linkFilter attrs, linkFilter []]

def linkRoot (attrs : List Attr) : Node :=
  .mk ⟨"manifest".toList, valid_manifest⟩ ⟨['2'], valid_line rfl⟩ []
    [.mk applicationName ⟨['5'], valid_line rfl⟩ [] [linkActivity attrs]]

def schemeAttr : Attr :=
  ⟨.android schemeKey ⟨"01010027".toList, by decide⟩, .string ⟨"http".toList, by decide⟩⟩

def linkManifest : Document :=
  ⟨[], linkRoot [], by decide, by decide, by decide, by decide, by decide, by decide, by decide,
    by decide, by decide, by decide⟩

def schemeManifest : Document :=
  ⟨[], linkRoot [schemeAttr], by decide, by decide, by decide, by decide, by decide, by decide,
    by decide, by decide, by decide, by decide⟩

/-- The record of the host takes the scheme of the action that follows it. -/
theorem action_scheme_read_as_data :
    schemeManifest.elementsOf activityName = [(2, linkActivity [schemeAttr])] ∧
      (extractIntentFilters (block (2, linkActivity [schemeAttr]))).map
        (·.data.map fun r => (r.scheme, r.host)) =
          [[("http".toList, "shop.example".toList)], [([], "shop.example".toList)]] ∧
      (ownFilters (linkActivity [schemeAttr])).map (·.data.map fun r => (r.scheme, r.host)) =
          [[([], "shop.example".toList)], [([], "shop.example".toList)]] := by
  have hmem : (2, linkActivity [schemeAttr]) ∈ schemeManifest.elementsOf activityName :=
    mem_singleton_self _
  have hread := congrArg (List.map fun c => c.data.map fun r => (r.scheme, r.host))
    (extractIntentFilters_textOf (readable mem_cons_self hmem) (by rw [placed_eq]; nofun))
  refine ⟨rfl, ?_, by decide +kernel⟩
  rw [map_map, map_snd_placed] at hread
  exact hread.trans (by decide +kernel)

theorem linkFilter_apart : Apart (linkFilter []) [] where
  names := by decide
  flag _ := by decide
  data := by
    unfold Keeps
    decide

theorem link_filters_exact :
    extractComponentBlocks (linkManifest.xmlTree.splitOn '\n') activityName.text =
        (linkManifest.elementsOf activityName).map block ∧
      ∀ p ∈ linkManifest.elementsOf activityName,
        (extractIntentFilters (block p)).map (·.toContents) = ownFilters p.2 := by
  have helements : linkManifest.elementsOf activityName = [(2, linkActivity [])] := rfl
  have hsegments : segments (·.begins intentFilterTag) (linkActivity []).children =
      [(linkFilter [], []), (linkFilter [], [])] := rfl
  refine (segmentation_exact_iff linkManifest activityName mem_cons_self).mpr ?_
  rw [helements, forall_mem_singleton, hsegments]
  simp only [forall_mem_cons, linkFilter_apart, not_mem_nil, false_implies, implies_true,
    and_self]

end Exactness

end Document

end Morf.Apk
