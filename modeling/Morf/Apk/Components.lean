import Morf.Apk.Attributes

/-! `extractComponentBlocks` of `apk/manifest_parser.go`: the pass over the lines of a printed
manifest that cuts out the blocks of its components. -/

namespace Morf.Apk

open Morf.Lib
open Morf.Lib.Search
open List

def isBlank (c : Char) : Bool := c == ' ' || c == '\t'

def trimBlanks (s : Text) : Text := (s.reverse.dropWhile isBlank).reverse

def countLeadingSpaces (s : Text) : Nat := s.length - (s.dropWhile isBlank).length

structure BlockState where
  blocks : List Text
  currentBlock : List Text
  inBlock : Bool
  inApplication : Bool
  applicationIndent : Int
  componentIndent : Int

namespace BlockState

def init : BlockState := ⟨[], [], false, false, -1, -1⟩

/-- A block without any name is dropped. -/
def keep (lines : List Text) : List Text :=
  let block := joinLines lines
  if Text.contains "android:name".toList block then [block] else []

def save (s : BlockState) : BlockState := { s with blocks := s.blocks ++ keep s.currentBlock }

def passOn (componentType : Text) (s : BlockState) (line : Text) (indent : Int) (trimmed : Text) :
    BlockState × Bool :=
  if "E: application".toList <+: trimmed then
    ({ s with inApplication := true, applicationIndent := indent }, false)
  else if s.inApplication ∧ indent ≤ s.applicationIndent ∧ ['E', ':'] <+: trimmed then
    (if indent = s.applicationIndent then
      { s with inApplication := false, applicationIndent := -1 } else s, false)
  else if !s.inApplication then (s, false)
  else if ['E', ':', ' '] ++ componentType <+: trimmed then
    let s := if s.inBlock ∧ s.currentBlock ≠ [] then s.save else s
    ({ s with currentBlock := [line], inBlock := true, componentIndent := indent }, false)
  else if s.inBlock then
    if s.componentIndent < indent ∨ (indent = s.componentIndent ∧ ¬ ['E', ':'] <+: trimmed) then
      ({ s with currentBlock := s.currentBlock ++ [line] }, false)
    else ({ s.save with inBlock := false, componentIndent := -1 }, true)
  else (s, false)

def pass (componentType : Text) (s : BlockState) (raw : Text) : BlockState × Bool :=
  let line := trimBlanks raw
  if line = [] then (s, false)
  else passOn componentType s line (countLeadingSpaces line) (Text.trimSpace line)

def visit (componentType : Text) (s : BlockState) (raw : Text) : BlockState :=
  let p := pass componentType s raw
  if p.2 then (pass componentType p.1 raw).1 else p.1

end BlockState

def extractComponentBlocks (lines : List Text) (componentType : Text) : List Text :=
  let s := lines.foldl (BlockState.visit componentType) .init
  if s.inBlock ∧ s.currentBlock ≠ [] then s.save.blocks else s.blocks

theorem exists_last {p : Char → Bool} {l : Text} (hne : l ≠ []) (h : ∀ x ∈ l, p x = true) :
    ∃ w c, l = w ++ [c] ∧ p c = true := by
  obtain ⟨w, c, rfl⟩ := (eq_nil_or_concat l).resolve_left hne
  exact ⟨w, c, by simp, h c (by simp)⟩

theorem isSpace_of_hex (h : isHexDigit c = true) : Text.isSpace c = false := by
  have hcode : (48 ≤ c.toNat ∧ c.toNat ≤ 57) ∨ (97 ≤ c.toNat ∧ c.toNat ≤ 102) := by
    simpa [isHexDigit, Char.le_def, UInt32.le_iff_toNat_le] using h
  by_contra hspace
  simp only [Text.isSpace, Bool.not_eq_false, Bool.or_eq_true, Bool.and_eq_true,
    decide_eq_true_eq, mem_cons, not_mem_nil, or_false] at hspace
  omega

theorem isBlank_of_isSpace (h : Text.isSpace c = false) : isBlank c = false := by
  rw [isBlank, Bool.or_eq_false_iff, beq_eq_false_iff_ne, beq_eq_false_iff_ne]
  constructor <;> rintro rfl <;> exact absurd h (by decide)

/-- A line that neither starts nor ends with white space, with its depth. -/
structure Line where
  depth : Nat
  text : Text
  ends : ∃ x w c, text = x :: (w ++ [c]) ∧ Text.isSpace x = false ∧ Text.isSpace c = false
  single : '\n' ∉ text

namespace Line

def print (l : Line) : Text := List.replicate (2 * l.depth) ' ' ++ l.text

def IsElement (l : Line) : Prop := ['E', ':'] <+: l.text

def Begins (name : Text) (l : Line) : Prop := ['E', ':', ' '] ++ name <+: l.text

instance (l : Line) : Decidable l.IsElement := inferInstanceAs (Decidable (_ <+: _))

instance (name : Text) (l : Line) : Decidable (l.Begins name) := inferInstanceAs (Decidable (_ <+: _))

theorem dropWhile_indent (hp : p ' ' = true) (n : Nat) (hx : p x = false) (w : Text) :
    (replicate n ' ' ++ x :: w).dropWhile p = x :: w := by
  rw [dropWhile_append_of_pos fun y hy => by rw [eq_of_mem_replicate hy, hp],
    dropWhile_cons_of_neg (by simp [hx])]

variable (l : Line)

theorem trimBlanks_print : trimBlanks l.print = l.print := by
  obtain ⟨x, w, c, htext, -, hc⟩ := l.ends
  have hrev : l.print.reverse = c :: (w.reverse ++ x :: replicate (2 * l.depth) ' ') := by
    simp [print, htext]
  rw [trimBlanks, hrev, dropWhile_cons_of_neg (by simp [isBlank_of_isSpace hc]), ← hrev,
    reverse_reverse]

theorem print_ne_nil : l.print ≠ [] := by
  obtain ⟨x, w, c, htext, -, -⟩ := l.ends
  simp [print, htext]

theorem countLeadingSpaces_print : countLeadingSpaces l.print = 2 * l.depth := by
  obtain ⟨x, w, c, htext, hx, -⟩ := l.ends
  rw [countLeadingSpaces, print, htext, dropWhile_indent (by decide) _ (isBlank_of_isSpace hx)]
  simp

theorem trimSpace_print : Text.trimSpace l.print = l.text := by
  obtain ⟨x, w, c, htext, hx, hc⟩ := l.ends
  have hrev : (x :: (w ++ [c])).reverse = c :: (w.reverse ++ [x]) := by simp
  rw [Text.trimSpace, print, htext, dropWhile_indent (by decide) _ hx, hrev,
    dropWhile_cons_of_neg (by simp [hc]), ← hrev, reverse_reverse]

theorem pass_print (ty : Text) (s : BlockState) :
    BlockState.pass ty s l.print = BlockState.passOn ty s l.print (2 * l.depth) l.text := by
  rw [BlockState.pass, trimBlanks_print, if_neg l.print_ne_nil, countLeadingSpaces_print,
    trimSpace_print]
  rfl

theorem newline_not_mem_print : '\n' ∉ l.print := by
  rw [print, mem_append, not_or]
  exact ⟨fun h => absurd (eq_of_mem_replicate h) (by decide), l.single⟩

theorem splitOn_print (ls : List Line) :
    (ls.flatMap fun l => l.print ++ ['\n']).splitOn '\n' = ls.map print ++ [[]] := by
  induction ls with
  | nil => rfl
  | cons l ls ih =>
    rw [flatMap_cons, append_assoc, singleton_append,
      splitOn_append_cons_self_of_not_mem l.newline_not_mem_print, ih]
    rfl

end Line

def applicationText : Text := "application".toList

namespace BlockState

section Pass

variable (ty : Text) {l : Line} (line : Text) (indent : Int)

theorem applicationText_eq : "E: application".toList = ['E', ':', ' '] ++ applicationText := by decide

theorem passOn_eq : passOn ty s line indent l.text =
    if l.Begins applicationText then
      ({ s with inApplication := true, applicationIndent := indent }, false)
    else if s.inApplication ∧ indent ≤ s.applicationIndent ∧ l.IsElement then
      (if indent = s.applicationIndent then
        { s with inApplication := false, applicationIndent := -1 } else s, false)
    else if !s.inApplication then (s, false)
    else if l.Begins ty then
      ({ (if s.inBlock ∧ s.currentBlock ≠ [] then s.save else s) with
        currentBlock := [line], inBlock := true, componentIndent := indent }, false)
    else if s.inBlock then
      if s.componentIndent < indent ∨ (indent = s.componentIndent ∧ ¬ l.IsElement) then
        ({ s with currentBlock := s.currentBlock ++ [line] }, false)
      else ({ s.save with inBlock := false, componentIndent := -1 }, true)
    else (s, false) := by
  rw [passOn, applicationText_eq]
  rfl

theorem passOn_application (h : l.Begins applicationText) :
    passOn ty s line indent l.text =
      ({ s with inApplication := true, applicationIndent := indent }, false) := by
  rw [passOn_eq, if_pos h]

theorem passOn_outside (h : ¬ l.Begins applicationText) (hin : s.inApplication = false) :
    passOn ty s line indent l.text = (s, false) := by
  rw [passOn_eq, if_neg h, if_neg (by simp [hin]), if_pos (by simp [hin])]

theorem passOn_leave (h : ¬ l.Begins applicationText) (hin : s.inApplication = true)
    (hel : l.IsElement) :
    passOn ty s line s.applicationIndent l.text =
      ({ s with inApplication := false, applicationIndent := -1 }, false) := by
  rw [passOn_eq, if_neg h, if_pos ⟨hin, Int.le_refl _, hel⟩, if_pos rfl]

variable {indent}

theorem passOn_inside (h : ¬ l.Begins applicationText) (hin : s.inApplication = true)
    (hdeep : s.applicationIndent < indent) :
    passOn ty s line indent l.text =
      if l.Begins ty then
        ({ (if s.inBlock ∧ s.currentBlock ≠ [] then s.save else s) with
          currentBlock := [line], inBlock := true, componentIndent := indent }, false)
      else if s.inBlock then
        if s.componentIndent < indent ∨ (indent = s.componentIndent ∧ ¬ l.IsElement) then
          ({ s with currentBlock := s.currentBlock ++ [line] }, false)
        else ({ s.save with inBlock := false, componentIndent := -1 }, true)
      else (s, false) := by
  rw [passOn_eq, if_neg h, if_neg fun h => absurd h.2.1 (Int.not_le.mpr hdeep),
    if_neg (by simp [hin])]

end Pass

def pending (s : BlockState) : List Text :=
  s.blocks ++ if s.inBlock then keep s.currentBlock else []

theorem keep_nil : keep [] = [] := by decide

theorem pending_eq (s : BlockState) :
    (if s.inBlock ∧ s.currentBlock ≠ [] then s.save.blocks else s.blocks) = s.pending := by
  obtain ⟨blocks, cur, inBlock, inApp, appIndent, compIndent⟩ := s
  cases inBlock with
  | false => simp [pending]
  | true => cases cur <;> simp [pending, save, keep_nil]

section Visit

variable {s : BlockState} {l : Line} {ls : List Line}

theorem visit_of_pass (h : passOn ty s l.print (2 * l.depth) l.text = (s', false)) :
    visit ty s l.print = s' := by
  rw [visit, l.pass_print, h]
  rfl

theorem visit_outside (h : ¬ l.Begins applicationText) (hin : s.inApplication = false) :
    visit ty s l.print = s :=
  visit_of_pass (passOn_outside ty _ _ h hin)

theorem foldl_outside (h : ∀ l ∈ ls, ¬ l.Begins applicationText) (hin : s.inApplication = false) :
    (ls.map Line.print).foldl (visit ty) s = s := by
  induction ls with
  | nil => rfl
  | cons l ls ih =>
    obtain ⟨hl, hls⟩ := forall_mem_cons.mp h
    rw [map_cons, foldl_cons, visit_outside hl hin, ih hls]

/-- Between two components of an application at depth `n`. -/
structure Inside (s : BlockState) (n : Nat) : Prop where
  app : s.inApplication = true
  appIndent : s.applicationIndent = 2 * n
  block : s.inBlock = true → s.componentIndent = 2 * (n + 1)

/-- A line deeper than `n` that starts neither an application nor a component of the type `ty`. -/
structure Below (ty : Text) (n : Nat) (l : Line) : Prop where
  depth : n < l.depth
  application : ¬ l.Begins applicationText
  component : ¬ l.Begins ty

theorem Below.mono (hl : Below ty (n + 1) l) : Below ty n l :=
  ⟨Nat.lt_of_succ_lt hl.depth, hl.application, hl.component⟩

theorem Inside.deep (hs : s.Inside n) (hd : n < d) : s.applicationIndent < 2 * (d : Int) := by
  rw [hs.appIndent]
  omega

theorem visit_below (hs : s.Inside n) (hin : s.inBlock = true) (hl : Below ty (n + 1) l) :
    visit ty s l.print = { s with currentBlock := s.currentBlock ++ [l.print] } := by
  have hdepth := hl.depth
  have hcomp : s.componentIndent < 2 * (l.depth : Int) := by
    rw [hs.block hin]
    omega
  refine visit_of_pass ?_
  rw [passOn_inside ty _ hl.application hs.app (hs.deep (by omega)), if_neg hl.component, if_pos hin,
    if_pos (.inl hcomp)]

theorem visit_idle (hs : s.Inside n) (hin : s.inBlock = false) (hl : Below ty n l) :
    visit ty s l.print = s := by
  refine visit_of_pass ?_
  rw [passOn_inside ty _ hl.application hs.app (hs.deep hl.depth), if_neg hl.component,
    if_neg (by simp [hin])]

theorem foldl_below (hs : s.Inside n) (hin : s.inBlock = true) (h : ∀ l ∈ ls, Below ty (n + 1) l) :
    (ls.map Line.print).foldl (visit ty) s =
      { s with currentBlock := s.currentBlock ++ ls.map Line.print } := by
  induction ls generalizing s with
  | nil => simp
  | cons l ls ih =>
    obtain ⟨hl, hls⟩ := forall_mem_cons.mp h
    have hs' : ({ s with currentBlock := s.currentBlock ++ [l.print] } : BlockState).Inside n :=
      ⟨hs.app, hs.appIndent, hs.block⟩
    rw [map_cons, foldl_cons, visit_below hs hin hl, ih hs' hin hls]
    simp

theorem foldl_idle (hs : s.Inside n) (hin : s.inBlock = false) (h : ∀ l ∈ ls, Below ty n l) :
    (ls.map Line.print).foldl (visit ty) s = s := by
  induction ls with
  | nil => rfl
  | cons l ls ih =>
    obtain ⟨hl, hls⟩ := forall_mem_cons.mp h
    rw [map_cons, foldl_cons, visit_idle hs hin hl, ih hls]

structure Component (ty : Text) (n : Nat) (first : Line) (rest : List Line) : Prop where
  depth : first.depth = n + 1
  element : first.IsElement
  application : ¬ first.Begins applicationText
  below : ∀ l ∈ rest, Below ty (n + 1) l

theorem visit_component (hs : s.Inside n) (hc : Component ty n l rest) (hty : l.Begins ty) :
    visit ty s l.print = ⟨s.pending, [l.print], true, true, 2 * n, 2 * (n + 1)⟩ := by
  have hd := hc.depth
  have hstart := passOn_inside ty l.print hc.application hs.app
    (hs.deep (show n < l.depth by omega))
  rw [if_pos hty] at hstart
  rw [visit_of_pass hstart, hd, ← pending_eq]
  split <;> simp [save, hs.app, hs.appIndent]

theorem visit_other (hs : s.Inside n) (hc : Component ty n l rest) (hty : ¬ l.Begins ty) :
    ∃ s', visit ty s l.print = s' ∧ s'.Inside n ∧ s'.inBlock = false ∧ s'.pending = s.pending := by
  have hd := hc.depth
  cases hin : s.inBlock with
  | false => exact ⟨s, visit_idle hs hin ⟨by omega, hc.application, hty⟩, hs, hin, rfl⟩
  | true =>
    have hcomp : ¬ (s.componentIndent < 2 * (l.depth : Int) ∨
        (2 * (l.depth : Int) = s.componentIndent ∧ ¬ l.IsElement)) := by
      rw [hs.block hin, hd]
      simp [hc.element]
    have hclose := passOn_inside ty l.print hc.application hs.app
      (hs.deep (show n < l.depth by omega))
    rw [if_neg hty, if_pos hin, if_neg hcomp] at hclose
    have hs' : ({ s.save with inBlock := false, componentIndent := -1 } : BlockState).Inside n :=
      ⟨hs.app, hs.appIndent, nofun⟩
    refine ⟨{ s.save with inBlock := false, componentIndent := -1 }, ?_, hs', rfl, ?_⟩
    · have hagain := passOn_inside ty l.print hc.application hs'.app
        (hs'.deep (show n < l.depth by omega))
      rw [if_neg hty, if_neg (by simp)] at hagain
      rw [visit, l.pass_print, hclose, if_pos rfl, l.pass_print, hagain]
    · simp [pending, save, hin]

theorem foldl_component (hs : s.Inside n) (hc : Component ty n l rest) :
    ∃ s', ((l :: rest).map Line.print).foldl (visit ty) s = s' ∧ s'.Inside n ∧
      s'.pending = s.pending ++ if l.Begins ty then keep ((l :: rest).map Line.print) else [] := by
  rw [map_cons, foldl_cons]
  by_cases hty : l.Begins ty
  · rw [visit_component hs hc hty]
    have hstart : (⟨s.pending, [l.print], true, true, 2 * n, 2 * (n + 1)⟩ : BlockState).Inside n :=
      ⟨rfl, rfl, fun _ => rfl⟩
    refine ⟨_, foldl_below hstart rfl hc.below, ⟨rfl, rfl, fun _ => rfl⟩, ?_⟩
    simp [pending, hty]
  · obtain ⟨s', hvisit, hs', hin, hpend⟩ := visit_other hs hc hty
    rw [hvisit, foldl_idle hs' hin fun r hr => (hc.below r hr).mono]
    exact ⟨s', rfl, hs', by simp [hpend, hty]⟩

theorem foldl_components (hs : s.Inside n) (cs : List (Line × List Line))
    (hcs : ∀ c ∈ cs, Component ty n c.1 c.2) :
    ∃ s', ((cs.flatMap fun c => c.1 :: c.2).map Line.print).foldl (visit ty) s = s' ∧
      s'.Inside n ∧ s'.pending = s.pending ++
        (cs.filter (·.1.Begins ty)).flatMap fun c => keep ((c.1 :: c.2).map Line.print) := by
  induction cs generalizing s with
  | nil => exact ⟨s, rfl, hs, by simp⟩
  | cons c cs ih =>
    obtain ⟨hc, hcs⟩ := forall_mem_cons.mp hcs
    obtain ⟨s₁, h₁, hs₁, hpend₁⟩ := foldl_component hs hc
    obtain ⟨s₂, h₂, hs₂, hpend₂⟩ := ih hs₁ hcs
    refine ⟨s₂, ?_, hs₂, ?_⟩
    · rw [flatMap_cons, map_append, foldl_append, h₁, h₂]
    · rw [hpend₂, hpend₁, append_assoc, filter_cons]
      by_cases hty : c.1.Begins ty <;> simp [hty]

end Visit

end BlockState

/-- The lines of a manifest with one application: what stands before it, its own line and its
attributes, its components, and what stands after it. -/
structure Outline (ty : Text) where
  depth : Nat
  before : List Line
  app : Line
  attrs : List Line
  components : List (Line × List Line)
  after : List Line
  outside : ∀ l ∈ before ++ after, ¬ l.Begins applicationText
  app_begins : app.Begins applicationText
  app_depth : app.depth = depth
  attrs_below : ∀ l ∈ attrs, BlockState.Below ty depth l
  component : ∀ c ∈ components, BlockState.Component ty depth c.1 c.2
  after_head : ∀ l ∈ after.head?, l.IsElement ∧ l.depth = depth

namespace Outline

open BlockState

variable (o : Outline ty)

def lines : List Line :=
  o.before ++ o.app :: o.attrs ++ (o.components.flatMap fun c => c.1 :: c.2) ++ o.after

theorem foldl_start : ∃ s : BlockState,
    ((o.before ++ o.app :: o.attrs).map Line.print).foldl (visit ty) .init = s ∧
      s.Inside o.depth ∧ s.pending = [] := by
  have hbefore : ∀ l ∈ o.before, ¬ l.Begins applicationText := fun l hl =>
    o.outside l (mem_append_left _ hl)
  have henter := passOn_application ty (s := .init) o.app.print (2 * (o.app.depth : Int))
    o.app_begins
  have hs : (⟨[], [], false, true, 2 * (o.app.depth : Int), -1⟩ : BlockState).Inside o.depth :=
    ⟨rfl, by rw [o.app_depth], nofun⟩
  refine ⟨_, ?_, hs, rfl⟩
  rw [map_append, foldl_append, foldl_outside hbefore rfl, map_cons, foldl_cons,
    visit_of_pass henter]
  exact foldl_idle hs rfl o.attrs_below

theorem foldl_after (hs : s.Inside o.depth) :
    ((o.after.map Line.print).foldl (visit ty) s).pending = s.pending := by
  have hafter : ∀ l ∈ o.after, ¬ l.Begins applicationText := fun l hl =>
    o.outside l (mem_append_right _ hl)
  have hhead := o.after_head
  cases hls : o.after with
  | nil => rfl
  | cons l ls =>
    rw [hls] at hafter hhead
    obtain ⟨hl, hls⟩ := forall_mem_cons.mp hafter
    obtain ⟨hel, hdepth⟩ := hhead l rfl
    have hleave := passOn_leave ty l.print hl hs.app hel
    rw [hs.appIndent, ← hdepth] at hleave
    rw [map_cons, foldl_cons, visit_of_pass hleave, foldl_outside hls rfl]
    rfl

theorem extractComponentBlocks_lines :
    extractComponentBlocks (o.lines.map Line.print ++ [[]]) ty =
      (o.components.filter (·.1.Begins ty)).flatMap fun c => keep ((c.1 :: c.2).map Line.print) := by
  obtain ⟨s₀, h₀, hs₀, hpend₀⟩ := o.foldl_start
  obtain ⟨s₁, h₁, hs₁, hpend₁⟩ := foldl_components hs₀ o.components o.component
  have hend : ∀ s : BlockState, [([] : Text)].foldl (visit ty) s = s := fun s => rfl
  rw [extractComponentBlocks, pending_eq, foldl_append, hend, lines, map_append,
    map_append, foldl_append, foldl_append, h₀, h₁, o.foldl_after hs₁, hpend₁, hpend₀,
    nil_append]

end Outline

section Rows

def elementLine (depth : Nat) (name : Name) (line : Digits) : Line where
  depth
  text := elementText name line
  ends := ⟨'E', [':', ' '] ++ name.text ++ " (line=".toList ++ line.text, ')', by simp [elementText],
    by decide, by decide⟩
  single := by
    simp only [elementText, List.mem_append, not_or]
    exact ⟨⟨⟨⟨by decide, name.not_mem (by decide)⟩, by decide⟩, line.not_mem (by decide)⟩, by decide⟩

theorem Attr.text_ends (a : Attr) : ∃ w c, a.text = w ++ [c] ∧ Text.isSpace c = false := by
  obtain ⟨key, value⟩ := a
  cases value with
  | string v =>
    exact ⟨key.text ++ ['='] ++ ['"'] ++ v.text ++ ['"'] ++ rawText ++ ['"'] ++ v.text ++ ['"'], ')',
      by simp [Attr.text, Value.text], by decide⟩
  | typed type data =>
    obtain ⟨w, c, hw, hc⟩ := exists_last data.valid.1 (all_eq_true.mp data.valid.2)
    exact ⟨key.text ++ ['='] ++ typeText ++ type.text ++ [')', '0', 'x'] ++ w, c,
      by simp [Attr.text, Value.text, hw], isSpace_of_hex hc⟩

theorem Key.not_mem (hname : isNameChar c = false) (hhex : isHexDigit c = false)
    (hc : c ∉ androidText ++ ['(', '0', 'x'] ++ [')']) (key : Key) : c ∉ key.text := by
  simp only [mem_append, not_or] at hc
  obtain ⟨⟨handroid, hopen⟩, hclose⟩ := hc
  cases key with
  | android name id =>
    simp only [Key.text, mem_append, not_or]
    exact ⟨⟨⟨⟨handroid, name.not_mem hname⟩, hopen⟩, id.not_mem hhex⟩, hclose⟩
  | other space name foreign =>
    cases space with
    | none => exact name.not_mem hname
    | some space =>
      have hcolon : c ∉ [':'] := fun h => handroid (by rw [mem_singleton.mp h]; decide)
      simp only [Key.text, mem_append, not_or]
      exact ⟨⟨space.not_mem hname, hcolon⟩, name.not_mem hname⟩

theorem Value.newline_not_mem (value : Value) : '\n' ∉ value.text := by
  cases value with
  | string v =>
    simp only [Value.text, mem_append, not_or]
    exact ⟨⟨⟨⟨⟨⟨by decide, v.valid.2⟩, by decide⟩, by decide⟩, by decide⟩, v.valid.2⟩, by decide⟩
  | typed type data =>
    simp only [Value.text, mem_append, not_or]
    exact ⟨⟨⟨by decide, type.not_mem (by decide)⟩, by decide⟩, data.not_mem (by decide)⟩

def attrLine (depth : Nat) (a : Attr) : Line where
  depth
  text := ['A', ':', ' '] ++ a.text
  ends := by
    obtain ⟨w, c, hw, hc⟩ := a.text_ends
    exact ⟨'A', [':', ' '] ++ w, c, by simp [hw], by decide, hc⟩
  single := by
    simp only [Attr.text, List.mem_append, not_or]
    exact ⟨by decide, ⟨a.key.not_mem (by decide) (by decide) (by decide), by decide⟩, a.value.newline_not_mem⟩

def spaceLine (depth : Nat) (bound : Name) (uri : Word) : Line where
  depth
  text := ['N', ':', ' '] ++ bound.text ++ ['='] ++ uri.text
  ends := by
    obtain ⟨w, c, hw, hc⟩ := exists_last uri.valid.1 (List.all_eq_true.mp uri.valid.2)
    exact ⟨'N', [':', ' '] ++ bound.text ++ ['='] ++ w, c, by simp [hw], by decide, by simpa using hc⟩
  single := by
    simp only [List.mem_append, not_or]
    exact ⟨⟨⟨by decide, bound.not_mem (by decide)⟩, by decide⟩, uri.not_mem (by decide)⟩

variable (depth : Nat)

theorem elementLine_isElement (name : Name) (line : Digits) : (elementLine depth name line).IsElement :=
  ⟨[' '] ++ name.text ++ " (line=".toList ++ line.text ++ [')'], by simp [elementLine, elementText]⟩

theorem elementLine_begins (hw : ' ' ∉ w) (name : Name) (line : Digits) :
    (elementLine depth name line).Begins w ↔ w <+: name.text := by
  have htext : (elementLine depth name line).text =
      ['E', ':', ' '] ++ (name.text ++ ' ' :: ("(line=".toList ++ line.text ++ [')'])) := by
    simp [elementLine, elementText]
  rw [Line.Begins, htext, prefix_append_right_inj, prefix_append_cons hw]

theorem attrLine_not_begins (w : Text) (a : Attr) : ¬ (attrLine depth a).Begins w := by
  simp [Line.Begins, attrLine, cons_prefix_cons]

theorem spaceLine_not_begins (w : Text) (bound : Name) (uri : Word) :
    ¬ (spaceLine depth bound uri).Begins w := by
  simp [Line.Begins, spaceLine, cons_prefix_cons]

theorem BlockState.below_attrs (ty : Text) (as : List Attr) :
    ∀ l ∈ as.map (attrLine (depth + 1)), Below ty depth l := by
  intro l hl
  obtain ⟨a, -, rfl⟩ := List.mem_map.mp hl
  exact ⟨Nat.lt_succ_self _, attrLine_not_begins _ _ a, attrLine_not_begins _ _ a⟩

end Rows

end Morf.Apk
