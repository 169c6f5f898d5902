import Morf.Apk.Filters

/-! What `extractIntentFilters` reads in the printed lines of some elements, in terms of the
elements. -/

namespace Morf.Apk.Filters

open Morf.Lib
open Morf.Lib.Search
open List Option Prod Line

def filterKeys : List Name :=
  [autoVerifyKey, schemeKey, hostKey, portKey, pathKey, pathPatternKey, pathPrefixKey, mimeTypeKey]

/-- Texts that look like the start of an element or a part of an attribute. -/
def marks : List Text :=
  [tagMark intentFilterTag, tagMark dataTag, typeClose] ++ filterKeys.map attrOpen

def Plain (a : Attr) : Prop :=
  match a.value with
  | .string v => v.text ≠ [] ∧ ∀ mark ∈ marks, ¬ mark <:+: v.text
  | .typed .. => True

instance (a : Attr) : Decidable (Plain a) := by
  unfold Plain
  split <;> infer_instance

def Named (n : Node) : Prop :=
  ∃ id v as, n.attrs = ⟨.android nameKey id, .string v⟩ :: as

instance (n : Node) : Decidable (Named n) :=
  match h : n.attrs with
  | ⟨.android k id, .string v⟩ :: as =>
    if hk : k = nameKey then .isTrue ⟨id, v, as, hk ▸ h⟩
    else .isFalse fun ⟨_, _, _, hn⟩ => hk (by rw [hn] at h; cases h; rfl)
  | [] => .isFalse fun ⟨_, _, _, hn⟩ => by rw [hn] at h; cases h
  | ⟨.other .., _⟩ :: _ => .isFalse fun ⟨_, _, _, hn⟩ => by rw [hn] at h; cases h
  | ⟨.android .., .typed ..⟩ :: _ => .isFalse fun ⟨_, _, _, hn⟩ => by rw [hn] at h; cases h

def attrsIn (ns : List Node) : List Attr := ns.flatMap Node.attrs

def stringIn (attrs : List Attr) (k : Name) : Option Text := attrs.findSome? (Attr.named k)

def numberIn (attrs : List Attr) (k : Name) : Option Text := attrs.findSome? (Attr.number k)

def flagOf (attrs : List Attr) : Bool := readAutoVerify (stringIn attrs) (numberIn attrs)

def recordOf (attrs : List Attr) : Option ManifestFilterData :=
  readData fun k => (stringIn attrs k).getD []

def nameOf (n : Node) : Option Text := stringIn n.attrs nameKey

def namesOf (tag : Name) (ns : List Node) : List Text := (ns.filter (·.begins tag)).filterMap nameOf

def readContents (ns : List Node) : Contents where
  actions := namesOf actionTag ns
  categories := namesOf categoryTag ns
  data := (segments (·.begins dataTag) ns).filterMap fun s => recordOf (attrsIn (s.1 :: s.2))
  autoVerify := flagOf (attrsIn ns)

def Contents.kept (c : Contents) : Option Contents := if c.isEmpty then none else some c

theorem Plain.not_infix (h : Plain a) (hv : a.value = .string v) :
    ∀ mark ∈ marks, ¬ mark <:+: v.text := by
  rw [Plain, hv] at h
  exact h.2

theorem attrOpen_mem_marks (hk : k ∈ filterKeys) : attrOpen k ∈ marks :=
  mem_append_right _ (List.mem_map_of_mem hk)

theorem answer_of_plain (h : Plain a) (hk : k ∈ filterKeys) : a.answer k = a.named k := by
  have hforged : a.forged k = none := by
    rw [Attr.forged]
    cases hv : a.value with
    | typed type data => rfl
    | string v => exact if_neg fun hin => h.not_infix hv _ (attrOpen_mem_marks hk) hin.1
  rw [Attr.answer, hforged, or_none]

theorem typeClose_not_infix_key {key : Key} (hu : key.opened k = some u) :
    ¬ typeClose <:+: u ++ ['='] := by
  refine not_infix_of_lacks (x := ' ') (by decide) ?_
  cases key with
  | other space name foreign => cases hu
  | android name id =>
    obtain ⟨-, ⟨⟩⟩ := ite_none_right_eq_some.mp hu
    simp only [mem_append, not_or]
    exact ⟨⟨⟨by decide, id.not_mem (by decide)⟩, by decide⟩, by decide⟩

theorem hexAnswer_of_plain (h : Plain a) (hk : k ∈ filterKeys) : a.hexAnswer k = a.number k := by
  obtain ⟨key, value⟩ := a
  cases value with
  | typed type data => rfl
  | string v =>
    have hmarks := h.not_infix rfl
    have hquote : '"' ∉ attrOpen k := separator_not_mem (by decide)
    have hsearch : seek k readHex (Value.string v).text = none := by
      rw [eq_none_iff_forall_ne_some]
      intro w hw
      exact hmarks _ (attrOpen_mem_marks hk)
        (Value.infix_text hquote n_mem_attrOpen (by decide) (by decide) (search_some hw))
    have hopen : ((key.opened k).bind fun u =>
        readHex (u ++ '=' :: (Value.string v).text)) = none := by
      rw [bind_eq_none_iff]
      intro u hu
      rw [eq_none_iff_forall_ne_some]
      intro w hw
      have htext : u ++ '=' :: (Value.string v).text =
          (u ++ ['=']) ++ '"' :: (v.text ++ '"' :: (rawText ++ '"' :: (v.text ++ ['"', ')']))) := by
        simp [Value.text]
      have hvalue : (Value.string v).text =
          '"' :: (v.text ++ '"' :: (rawText ++ '"' :: (v.text ++ ['"', ')']))) := by
        simp [Value.text]
      have hin := along_some hw
      rw [htext, infix_append_cons (by decide) (by decide)] at hin
      rcases hin with hin | hin
      · exact typeClose_not_infix_key hu hin
      · refine hmarks typeClose (by simp [marks]) (Value.infix_text (x := '=') (by decide) (by decide)
          (by decide) (by decide) ?_)
        rw [hvalue]
        exact hin.trans (suffix_cons _ _).isInfix
    have htext : (⟨key, .string v⟩ : Attr).text = key.text ++ '=' :: (Value.string v).text := by
      simp [Attr.text]
    have hnumber : (⟨key, .string v⟩ : Attr).number k = none := by
      cases key <;> rfl
    rw [hnumber]
    change findHex k (⟨key, .string v⟩ : Attr).text = none
    rw [findHex_eq, htext, search_key, hopen, hsearch]
    rfl

section Searches

variable {read : Text → Option Text} {answer : Attr → Option Text}

theorem findSome?_congr {g : Attr → Option Text} {l : List Attr} (h : ∀ a ∈ l, f a = g a) :
    l.findSome? f = l.findSome? g := by
  induction l with
  | nil => rfl
  | cons a l ih =>
    obtain ⟨ha, hl⟩ := forall_mem_cons.mp h
    rw [findSome?_cons_or, findSome?_cons_or, ha, ih hl]

theorem findSome?_linesOf (hheading : ∀ p, find (headingLine p) = none)
    (hattr : ∀ depth a, find (attrLine depth a) = answer a) (ps : List (Nat × Node)) :
    (linesOf ps).findSome? find = (attrsIn (ps.map Prod.snd)).findSome? answer := by
  induction ps with
  | nil => rfl
  | cons p ps ih =>
    have hattrs : (attrLines p).findSome? find = p.2.attrs.findSome? answer := by
      rw [attrLines, findSome?_map]
      exact congrArg (findSome? · p.2.attrs) (funext fun a => hattr _ a)
    rw [linesOf, flatMap_cons, cons_append, findSome?_cons_or, hheading, none_or,
      findSome?_append, hattrs, map_cons, attrsIn, flatMap_cons, findSome?_append]
    exact congrArg _ ih

theorem search_textOf (hattr : ∀ a t, LineEnd t → seek k read (a.text ++ t) =
      (answer a).or (seek k read t)) (ps : List (Nat × Node)) :
    seek k read (textOf ps) = (attrsIn (ps.map Prod.snd)).findSome? answer := by
  have hnil : seek k read [] = none :=
    past_eq_none fun h => attrOpen_ne_nil k (prefix_nil.mp h)
  have hheading : ∀ p t, seek k read ((headingLine p).print ++ t) =
      seek k read t := fun p t => by
    rw [Line.print, append_assoc]
    exact search_element _ _ _
  have hline : ∀ depth a t, LineEnd t → seek k read ((attrLine depth a).print ++ t) =
      (answer a).or (seek k read t) := fun depth a t ht => by
    rw [Line.print, append_assoc]
    exact (search_indent _ 'A' (by decide)).trans (hattr a t ht)
  have hheading' : ∀ p, seek k read (headingLine p).print = none := fun p => by
    rw [← append_nil (headingLine p).print, hheading, hnil]
  have hline' : ∀ depth a, seek k read (attrLine depth a).print = answer a :=
    fun depth a => by
      rw [← append_nil (attrLine depth a).print, hline _ _ _ lineEnd_nil, hnil, or_none]
  have hlines : ∀ l ∈ linesOf ps, ∀ t, LineEnd t → seek k read (l.print ++ t) =
      (seek k read l.print).or (seek k read t) := by
    intro l hl t ht
    obtain ⟨p, -, hl⟩ := mem_flatMap.mp hl
    rcases mem_cons.mp hl with rfl | hl
    · rw [hheading, hheading', none_or]
    · obtain ⟨a, -, rfl⟩ := List.mem_map.mp hl
      rw [hline _ _ _ ht, hline']
  rw [textOf, search_lines hlines, findSome?_linesOf hheading' hline']

variable {ps : List (Nat × Node)} (hplain : ∀ a ∈ attrsIn (ps.map Prod.snd), Plain a)
  (hk : k ∈ filterKeys)
include hplain hk

theorem findString_textOf : findString k (textOf ps) = stringIn (attrsIn (ps.map Prod.snd)) k := by
  rw [findString_eq, search_textOf (fun a t ht => search_attr a ht), stringIn]
  exact findSome?_congr fun a ha => answer_of_plain (hplain a ha) hk

theorem findHex_textOf : findHex k (textOf ps) = numberIn (attrsIn (ps.map Prod.snd)) k := by
  rw [findHex_eq, search_textOf (fun a t ht => search_hex_attr a ht), numberIn]
  exact findSome?_congr fun a ha => hexAnswer_of_plain (hplain a ha) hk

end Searches

section Names

theorem inSet_blank : Regex.inSet false blankSet = isBlank := by
  funext c
  have hone : ∀ x : Char, (decide (x ≤ c) && decide (c ≤ x)) = (c == x) := fun x => by
    rw [Bool.eq_iff_iff, Bool.and_eq_true, decide_eq_true_iff, decide_eq_true_iff, beq_iff_eq]
    exact ⟨fun h => Char.le_antisymm h.2 h.1, fun h => h ▸ ⟨Char.le_refl c, Char.le_refl c⟩⟩
  simp [Regex.inSet, blankSet, isBlank, hone]

theorem takeWhile_print (l : Line) (t : Text) :
    (l.print ++ t).takeWhile isBlank = replicate (2 * l.depth) ' ' := by
  obtain ⟨x, w, c, htext, hx, -⟩ := l.ends
  have hblank : ∀ y ∈ replicate (2 * l.depth) ' ', isBlank y = true := fun y hy => by
    rw [eq_of_mem_replicate hy]
    rfl
  rw [Line.print, htext, append_assoc, takeWhile_append_of_pos hblank, cons_append,
    takeWhile_cons_of_neg (by simp [isBlank_of_isSpace hx]), append_nil]

theorem spans_lit_of_blank (hx : isBlank x = false) (w : Text) (r : Regex) :
    ∀ (c : Cursor) y ys, c.rest = y :: ys → Regex.inSet false blankSet y = true →
      (Regex.seq (.lit (x :: w)) r).spans c = [] := by
  intro c y ys hc hy
  rw [inSet_blank] at hy
  have hne : x ≠ y := fun h => by
    rw [h, hy] at hx
    cases hx
  rw [Regex.spans_lit_seq, hc, if_neg fun h => hne (cons_prefix_cons.mp h).1]

theorem spans_indent (hx : isBlank x = false) (w : Text) (r : Regex) (prev : Option Char) (l : Line)
    (t : Text) :
    ∃ prev', (Regex.seq (.star true (.set false blankSet)) (.seq (.lit (x :: w)) r)).spans
        ⟨prev, l.print ++ t⟩ =
      ((Regex.seq (.lit (x :: w)) r).spans ⟨prev', l.text ++ t⟩).map
        (replicate (2 * l.depth) ' ' ++ ·) := by
  have hskip : (⟨prev, l.print ++ t⟩ : Cursor).skip (replicate (2 * l.depth) ' ') =
      ⟨(replicate (2 * l.depth) ' ').getLast?.or prev, l.text ++ t⟩ := by
    rw [Cursor.skip, Line.print, append_assoc, drop_left]
  refine ⟨(replicate (2 * l.depth) ' ').getLast?.or prev, ?_⟩
  rw [Regex.spans_star_seq (spans_lit_of_blank hx w r), inSet_blank, takeWhile_print, hskip]

def nameTail : Regex :=
  .seq (.star true .any) (.seq (.lit ['\n']) (.seq (.star true (.set false blankSet))
    (.seq (.lit ['A', ':', ' ']) (attrStringRe nameKey))))

theorem spans_namedElement (tag : Name) (l : Line) (t : Text) (prev : Option Char) :
    ∃ prev', (namedElementRe tag).spans ⟨prev, l.print ++ t⟩ =
      if prev.all (· == '\n') then
        ((Regex.seq (.lit (tagMark tag)) nameTail).spans ⟨prev', l.text ++ t⟩).map
          (replicate (2 * l.depth) ' ' ++ ·)
      else [] := by
  obtain ⟨prev', hspans⟩ := spans_indent (x := 'E') (by decide) (':' :: ' ' :: tag.text) nameTail prev l t
  refine ⟨prev', ?_⟩
  rw [namedElementRe, Regex.spans_lineStart]
  exact if_congr Iff.rfl hspans rfl

theorem spans_other_line {l : Line} {t : Text} (ht : LineEnd t) (hl : ¬ l.Begins tag.text)
    (prev : Option Char) : (namedElementRe tag).spans ⟨prev, l.print ++ t⟩ = [] := by
  obtain ⟨prev', hspans⟩ := spans_namedElement tag l t prev
  have hno : ¬ tagMark tag <+: l.text ++ t := fun h =>
    hl ((prefix_append_lineEnd (tagMark_not_mem (by decide) tag) ht).mp h)
  rw [hspans, Regex.spans_lit_seq, if_neg hno, map_nil, ite_self]

theorem lineBound_namedElement (tag : Name) : (namedElementRe tag).LineBound := by
  refine Regex.lineBound_lineStart fun prev t ht => ?_
  have htake : t.takeWhile isBlank = [] := by
    cases t with
    | nil => rfl
    | cons x t => rw [ht x rfl]; rfl
  have hno : ¬ tagMark tag <+: t := fun h => by
    have := (prefix_append_lineEnd (w := []) (tagMark_not_mem (by decide) tag) ht).mp h
    simp [tagMark_eq] at this
  have hspans := Regex.spans_star_seq (c := ⟨prev, t⟩)
    (spans_lit_of_blank (x := 'E') (by decide) (':' :: ' ' :: tag.text) nameTail)
  rw [inSet_blank] at hspans
  refine hspans.trans ?_
  change ((Regex.seq (.lit (tagMark tag)) nameTail).spans _).map _ = _
  rw [htake, Cursor.skip_nil, Regex.spans_lit_seq, if_neg hno]
  rfl

def nameFront (id : Digits) (v : Literal) : Text :=
  ['A', ':', ' '] ++ (attrOpen nameKey ++ ((['0', 'x'] ++ id.text) ++ (quoteClose ++ v.text)))

def nameBack (v : Literal) : Text := rawText ++ '"' :: (v.text ++ ['"', ')'])

theorem text_nameLine (depth : Nat) (id : Digits) (v : Literal) :
    (attrLine depth ⟨.android nameKey id, .string v⟩).text = nameFront id v ++ '"' :: nameBack v := by
  have hclose : quoteClose = [')', '=', '"'] := by decide
  simp [attrLine, Attr.text, Key.text, Value.text, nameFront, nameBack, attrOpen, hclose]

theorem head_spans_nameTail {v : Literal} (hv : v.text ≠ []) {w : Text} (hw : '\n' ∉ w) (depth : Nat)
    (id : Digits) (t : Text) (prev : Option Char) :
    (nameTail.spans ⟨prev, w ++ '\n' ::
        ((attrLine depth ⟨.android nameKey id, .string v⟩).print ++ t)⟩).head? =
      some (w ++ '\n' :: (replicate (2 * depth) ' ' ++ (nameFront id v ++ ['"']))) := by
  have hany : ∀ (c : Cursor) x xs, c.rest = x :: xs → Regex.inSet true [('\n', '\n')] x = true →
      (Regex.seq (.lit ['\n']) (.seq (.star true (.set false blankSet))
        (.seq (.lit ['A', ':', ' ']) (attrStringRe nameKey)))).spans c = [] := by
    intro c x xs hc hx
    have hne : ¬ ['\n'] <+: x :: xs := fun h =>
      Regex.inSet_not_char.mp hx (cons_prefix_cons.mp h).1.symm
    rw [Regex.spans_lit_seq, hc, if_neg hne]
  have htake : (w ++ '\n' :: ((attrLine depth ⟨.android nameKey id, .string v⟩).print ++ t)).takeWhile
      (Regex.inSet true [('\n', '\n')]) = w := by
    rw [takeWhile_not_char]
    exact Text.takeWhile_ne_append hw _
  have hattr : ∀ p, ((attrStringRe nameKey).spans
      ⟨p, attrOpen nameKey ++ ((['0', 'x'] ++ id.text) ++ (quoteClose ++ (v.text ++ '"' ::
        (nameBack v ++ t))))⟩).head? =
      some (attrOpen nameKey ++ ((['0', 'x'] ++ id.text) ++ (quoteClose ++ (v.text ++ ['"'])))) :=
    head_spans_attrString nameKey (id.not_mem_number (by decide) (by decide))
      (id.not_mem_number (by decide) (by decide)) hv v.valid.1
  obtain ⟨prev', hspans⟩ := spans_indent (x := 'A') (by decide) [':', ' '] (attrStringRe nameKey)
    (some '\n') (attrLine depth ⟨.android nameKey id, .string v⟩) t
  have htext : (attrLine depth ⟨.android nameKey id, .string v⟩).text ++ t = ['A', ':', ' '] ++
      (attrOpen nameKey ++ ((['0', 'x'] ++ id.text) ++ (quoteClose ++ (v.text ++ '"' ::
        (nameBack v ++ t))))) := by
    rw [text_nameLine]
    simp [nameFront]
  have hskip : ∀ p u, (⟨p, w ++ '\n' :: u⟩ : Cursor).skip w = ⟨w.getLast?.or p, '\n' :: u⟩ :=
    fun p u => by rw [Cursor.skip, drop_left]
  have hnewline : ∀ p u, (⟨p, '\n' :: u⟩ : Cursor).skip ['\n'] = ⟨some '\n', u⟩ := fun _ _ => rfl
  rw [nameTail, Regex.any, Regex.spans_star_seq hany, htake, head?_map, hskip,
    Regex.spans_lit_seq, if_pos (by simp), head?_map, hnewline, hspans, head?_map, htext,
    Regex.spans_lit_seq, if_pos (List.prefix_append _ _), head?_map, Cursor.skip, drop_left,
    hattr]
  simp [nameFront, attrLine]

theorem print_nameLine (depth : Nat) (id : Digits) (v : Literal) :
    (attrLine depth ⟨.android nameKey id, .string v⟩).print =
      (replicate (2 * depth) ' ' ++ nameFront id v) ++ '"' :: nameBack v := by
  rw [print, text_nameLine, append_assoc]
  rfl

theorem head_spans_namedElement {l : Line} (hl : l.Begins tag.text) {v : Literal} (hv : v.text ≠ [])
    (depth : Nat) (id : Digits) (ls : List Text) :
    ((namedElementRe tag).spans ⟨some '\n', l.print ++ Regex.followed
        (((replicate (2 * depth) ' ' ++ nameFront id v) ++ '"' :: nameBack v) :: ls)⟩).head? =
      some (l.print ++ '\n' :: ((replicate (2 * depth) ' ' ++ nameFront id v) ++ ['"'])) := by
  obtain ⟨w, hw⟩ := hl
  have hmark : l.text = tagMark tag ++ w := hw.symm
  have hnl : '\n' ∉ w := fun h => l.single (by rw [hmark]; exact mem_append_right _ h)
  obtain ⟨prev', hspans⟩ := spans_namedElement tag l (Regex.followed
    (((replicate (2 * depth) ' ' ++ nameFront id v) ++ '"' :: nameBack v) :: ls)) (some '\n')
  have htext : l.text ++ Regex.followed
      (((replicate (2 * depth) ' ' ++ nameFront id v) ++ '"' :: nameBack v) :: ls) =
      tagMark tag ++ (w ++ '\n' :: ((attrLine depth ⟨.android nameKey id, .string v⟩).print ++
        Regex.followed ls)) := by
    rw [hmark, Regex.followed_cons, print_nameLine, append_assoc]
  rw [hspans, if_pos (by simp), head?_map, htext, Regex.spans_lit_seq, if_pos (List.prefix_append _ _),
    head?_map, Cursor.skip, drop_left, head_spans_nameTail hv hnl]
  simp [print, hmark]

theorem quotedGroup_name (u : Text) (depth : Nat) (id : Digits) (v : Literal) :
    quotedGroup (u ++ '\n' :: ((replicate (2 * depth) ' ' ++ nameFront id v) ++ ['"'])) = v.text := by
  have hclose : quoteClose = [')', '='] ++ ['"'] := by decide
  have htext : u ++ '\n' :: ((replicate (2 * depth) ' ' ++ nameFront id v) ++ ['"']) =
      (u ++ '\n' :: (replicate (2 * depth) ' ' ++ (['A', ':', ' '] ++ (attrOpen nameKey ++
        ((['0', 'x'] ++ id.text) ++ [')', '=']))))) ++ '"' :: v.text ++ ['"'] := by
    simp [nameFront, hclose]
  rw [quotedGroup, htext, dropLast_concat, Text.afterLast_append v.valid.1]

variable {ls spans : List Text}

theorem findsIn_attrLines (depth : Nat) (as : List Attr)
    (h : (namedElementRe tag).FindsIn ls spans) :
    (namedElementRe tag).FindsIn ((as.map (attrLine depth)).map Line.print ++ ls) spans := by
  induction as with
  | nil => exact h
  | cons a as ih =>
    exact ih.skip (lineBound_namedElement tag) (attrLine depth a).newline_not_mem_print
      (spans_other_line (Regex.lineEnd_followed _) (attrLine_not_begins _ _ a) _)

theorem nameOf_of_attrs {id : Digits} {v : Literal} (hv : v.text ≠ [])
    (h : n.attrs = ⟨.android nameKey id, .string v⟩ :: as) : nameOf n = some v.text := by
  have hnamed : Attr.named nameKey ⟨.android nameKey id, .string v⟩ = some v.text := if_pos ⟨rfl, hv⟩
  rw [nameOf, stringIn, h, findSome?_cons_or, hnamed, some_or]

theorem print_linesOf_cons (p : Nat × Node) (ps : List (Nat × Node)) :
    (linesOf (p :: ps)).map Line.print = (headingLine p).print ::
      ((p.2.attrs.map (attrLine (p.1 + 1))).map Line.print ++ (linesOf ps).map Line.print) := by
  rw [linesOf, flatMap_cons, map_append, map_cons]
  rfl

theorem findsIn_linesOf (hplain : ∀ a ∈ attrsIn (ps.map Prod.snd), Plain a)
    (hnamed : ∀ p ∈ ps, p.2.begins tag = true → Named p.2) :
    ∃ spans, (namedElementRe tag).FindsIn ((linesOf ps).map Line.print) spans ∧
      spans.map quotedGroup = namesOf tag (ps.map Prod.snd) := by
  induction ps with
  | nil => exact ⟨[], Regex.FindsIn.nil (lineBound_namedElement tag), rfl⟩
  | cons p ps ih =>
    obtain ⟨hp, hps⟩ := forall_mem_cons.mp hnamed
    have hplain' : ∀ a ∈ attrsIn (ps.map Prod.snd), Plain a := fun a ha =>
      hplain a (mem_append_right _ ha)
    obtain ⟨spans, hfinds, hspans⟩ := ih hplain' hps
    cases hb : p.2.begins tag with
    | false =>
      refine ⟨spans, ?_, by rw [hspans]; simp [namesOf, hb]⟩
      rw [print_linesOf_cons]
      refine (findsIn_attrLines _ _ hfinds).skip (lineBound_namedElement tag)
        (headingLine p).newline_not_mem_print (spans_other_line (Regex.lineEnd_followed _) ?_ _)
      rw [headingLine_begins, hb]
      exact Bool.false_ne_true
    | true =>
      obtain ⟨id, v, as, hattrs⟩ := hp hb
      have hv : v.text ≠ [] := by
        have := hplain ⟨.android nameKey id, .string v⟩
          (mem_append_left _ (by rw [hattrs]; exact mem_cons_self))
        exact this.1
      refine ⟨((headingLine p).print ++ '\n' ::
        ((replicate (2 * (p.1 + 1)) ' ' ++ nameFront id v) ++ ['"'])) :: spans, ?_, ?_⟩
      · rw [print_linesOf_cons, hattrs, map_cons, map_cons, print_nameLine, cons_append]
        refine (findsIn_attrLines _ _ hfinds).take (lineBound_namedElement tag) ?_
          (head_spans_namedElement ((headingLine_begins tag p).mpr hb) hv _ _ _)
        rw [← print_nameLine]
        exact newline_not_mem_print _
      · rw [map_cons, quotedGroup_name, hspans]
        simp [namesOf, hb, nameOf_of_attrs hv hattrs]

theorem findNames_textOf (hplain : ∀ a ∈ attrsIn (ps.map snd), Plain a)
    (hp : p.2.begins tag = false) (hnamed : ∀ p ∈ ps, p.2.begins tag = true → Named p.2) :
    findNames (namedElementRe tag) (textOf (p :: ps)) = namesOf tag ((p :: ps).map snd) := by
  obtain ⟨spans, hfinds, hspans⟩ := findsIn_linesOf hplain hnamed
  have hfind : ((namedElementRe tag).findAll (textOf (p :: ps))).map Regex.Match.span = spans := by
    rw [textOf, print_linesOf_cons]
    refine (findsIn_attrLines _ _ hfinds).findAll (lineBound_namedElement tag)
      (headingLine p).newline_not_mem_print (spans_other_line (Regex.lineEnd_followed _) ?_ _)
    rw [headingLine_begins, hp]
    exact Bool.false_ne_true
  have hcomp : (fun m : Regex.Match => quotedGroup m.span) = quotedGroup ∘ Regex.Match.span := rfl
  rw [findNames, hcomp, ← List.map_map, hfind, hspans]
  simp [namesOf, hp]

end Names

section Scans

variable {ps : List (Nat × Node)}

structure Readable (ps : List (Nat × Node)) : Prop where
  depth : ∀ p ∈ ps, 1 ≤ p.1
  plain : ∀ a ∈ attrsIn (ps.map snd), Plain a
  action : ∀ p ∈ ps, p.2.begins actionTag = true → Named p.2
  category : ∀ p ∈ ps, p.2.begins categoryTag = true → Named p.2

theorem Readable.mono (h : Readable ps) (hqs : qs ⊆ ps) : Readable qs where
  depth p hp := h.depth p (hqs hp)
  plain a ha := h.plain a (by
    obtain ⟨n, hn, ha⟩ := mem_flatMap.mp ha
    exact mem_flatMap.mpr ⟨n, map_subset snd hqs hn, ha⟩)
  action p hp := h.action p (hqs hp)
  category p hp := h.category p (hqs hp)

theorem print_linesOf (ps : List (Nat × Node)) : (linesOf ps).map print =
    ps.flatMap fun p => (headingLine p).print :: (attrLines p).map print := by
  rw [linesOf, map_flatMap]
  rfl

theorem indent_of_linesOf (h : ∀ p ∈ ps, 1 ≤ p.1) :
    ∀ line ∈ (linesOf ps).map print, [' ', ' '] <+: line := by
  intro line hline
  obtain ⟨l, hl, rfl⟩ := List.mem_map.mp hline
  have hdepth : 1 ≤ l.depth := le_depth_of_linesOf h l hl
  have hblanks : [' ', ' '] <+: replicate (2 * l.depth) ' ' := by
    rw [← Nat.sub_add_cancel (Nat.mul_le_mul_left 2 hdepth), Nat.add_comm, replicate_add]
    exact List.prefix_append _ _
  exact hblanks.trans (List.prefix_append _ _)

theorem run_linesOf {m : Scanner Text σ} (tag : Name) (h : Readable ps)
    (hm : ∀ line, m.starts line = Text.contains (tagMark tag) line)
    (hbelongs : ∀ line, [' ', ' '] <+: line → m.belongs line = true) (htag : tagMark tag ∈ marks)
    (init : σ) :
    m.run init ((linesOf ps).map print) = (segments (fun p => p.2.begins tag) ps).foldl
      (fun out s => m.flush out ((linesOf (s.1 :: s.2)).map print)) init := by
  have hattrs : ∀ p ∈ ps, ∀ line ∈ (attrLines p).map print, m.starts line = false := by
    intro p hp line hline
    rw [attrLines, List.map_map] at hline
    obtain ⟨a, ha, rfl⟩ := List.mem_map.mp hline
    have hplain := h.plain a (mem_flatMap.mpr ⟨p.2, List.mem_map_of_mem hp, ha⟩)
    rw [hm]
    exact contains_attrLine (fun v hv => hplain.not_infix hv _ htag) _
  have hheading : ∀ p ∈ ps, m.starts (headingLine p).print = p.2.begins tag := fun p _ => by
    rw [hm, contains_headingLine]
  rw [Scanner.run_eq fun line hline _ => hbelongs line (indent_of_linesOf h.depth line hline),
    print_linesOf, segments_blocks hattrs, segments_congr hheading, foldl_map]
  congr 1
  funext out s
  rw [print_linesOf (s.1 :: s.2), flatMap_cons]
  rfl

theorem marks_tags : tagMark intentFilterTag ∈ marks ∧ tagMark dataTag ∈ marks := by simp [marks]

theorem subset_of_mem_segments (h : s ∈ segments p ps) : s.1 :: s.2 ⊆ ps := by
  obtain ⟨-, hfirst, hrest⟩ := mem_segments h
  exact cons_subset.mpr ⟨hfirst, fun q hq => (hrest q hq).1⟩

theorem dataKeys_mem : ∀ k ∈ [schemeKey, hostKey, portKey, pathKey, pathPatternKey, pathPrefixKey,
    mimeTypeKey], k ∈ filterKeys := fun _ hk => mem_cons_of_mem _ hk

theorem readData_congr (h : ∀ k ∈ filterKeys, f k = g k) : readData f = readData g := by
  have hdata : dataOf f = dataOf g := by
    simp only [dataOf, h _ (dataKeys_mem _ (by simp : schemeKey ∈ _)),
      h _ (dataKeys_mem _ (by simp : hostKey ∈ _)), h _ (dataKeys_mem _ (by simp : portKey ∈ _)),
      h _ (dataKeys_mem _ (by simp : pathKey ∈ _)), h _ (dataKeys_mem _ (by simp : pathPatternKey ∈ _)),
      h _ (dataKeys_mem _ (by simp : pathPrefixKey ∈ _)),
      h _ (dataKeys_mem _ (by simp : mimeTypeKey ∈ _))]
  rw [readData, readData, hdata]

theorem readData_textOf (h : Readable ps) :
    readData (extractAttribute (textOf ps)) = recordOf (attrsIn (ps.map snd)) :=
  readData_congr fun k hk => by rw [extractAttribute, findString_textOf h.plain hk]

theorem run_dataScanner (h : Readable ps) (hps : ps ≠ []) (filter : ManifestFilter) :
    dataScanner.run filter ((textOf ps).splitOn '\n') =
      { filter with data := filter.data ++ ((segments (·.begins dataTag) (ps.map snd)).filterMap
          fun s => recordOf (attrsIn (s.1 :: s.2))) } := by
  have hmark : "E: data".toList = tagMark dataTag := by decide
  have hrun := run_linesOf dataTag h (m := dataScanner)
    (fun line => by rw [← hmark]; rfl)
    (fun line hline => by simp [dataScanner, hline]) marks_tags.2 filter
  have hfold : ∀ (l : List ((Nat × Node) × List (Nat × Node))) (f : ManifestFilter),
      (∀ s ∈ l, Readable (s.1 :: s.2)) →
      l.foldl (fun out s => dataScanner.flush out ((linesOf (s.1 :: s.2)).map print)) f =
        { f with data := f.data ++
            (l.filterMap fun s => recordOf (attrsIn (s.1.2 :: s.2.map snd))) } := by
    intro l
    induction l with
    | nil => intro f _; simp
    | cons s l ih =>
      intro f hl
      obtain ⟨hs, hl⟩ := forall_mem_cons.mp hl
      have hflush : dataScanner.flush f ((linesOf (s.1 :: s.2)).map print) =
          { f with data := f.data ++ (recordOf (attrsIn (s.1.2 :: s.2.map snd))).toList } := by
        have hread := readData_textOf hs
        rw [map_cons] at hread
        rw [← hread]
        rfl
      rw [foldl_cons, hflush, ih _ hl, filterMap_cons]
      cases recordOf (attrsIn (s.1.2 :: s.2.map snd)) <;> simp
  rw [splitOn_textOf hps, hrun, hfold _ _ fun s hs => h.mono (subset_of_mem_segments hs),
    segments_map, filterMap_map]
  rfl

theorem begins_of_begins {n : Node} (h : n.begins k = true) (hk : ¬ k.text <+: k'.text)
    (hk' : ¬ k'.text <+: k.text) : n.begins k' = false := by
  rw [← Bool.not_eq_true]
  rw [Node.begins, List.isPrefixOf_iff_prefix] at h ⊢
  intro h'
  rcases prefix_or_prefix_of_prefix h h' with hpre | hpre
  · exact hk hpre
  · exact hk' hpre

theorem readAutoVerify_congr (hs : string autoVerifyKey = string' autoVerifyKey)
    (hh : hex autoVerifyKey = hex' autoVerifyKey) :
    readAutoVerify string hex = readAutoVerify string' hex' := by
  rw [readAutoVerify, readAutoVerify, hs, hh]

theorem map_toContents (f : ManifestFilter) :
    (if f.toContents.isEmpty then none else some f).map (·.toContents) = f.toContents.kept := by
  rw [Contents.kept]
  split <;> rfl

theorem processIntentFilterBlock_textOf (h : Readable (p :: ps))
    (hp : p.2.begins intentFilterTag = true) :
    (processIntentFilterBlock (textOf (p :: ps))).map (·.toContents) =
      (readContents (p.2 :: ps.map snd)).kept := by
  have hps := h.mono (subset_cons_self p ps)
  have hactions : findNames mpActionRe (textOf (p :: ps)) = namesOf actionTag (p.2 :: ps.map snd) :=
    findNames_textOf hps.plain (begins_of_begins hp (by decide) (by decide)) hps.action
  have hcategories : findNames mpCategoryRe (textOf (p :: ps)) =
      namesOf categoryTag (p.2 :: ps.map snd) :=
    findNames_textOf hps.plain (begins_of_begins hp (by decide) (by decide)) hps.category
  have hflag : readAutoVerify (findString · (textOf (p :: ps))) (findHex · (textOf (p :: ps))) =
      flagOf (attrsIn (p.2 :: ps.map snd)) :=
    readAutoVerify_congr (findString_textOf h.plain (by simp [filterKeys]))
      (findHex_textOf h.plain (by simp [filterKeys]))
  rw [processIntentFilterBlock, hactions, hcategories, hflag]
  dsimp only
  rw [run_dataScanner h (cons_ne_nil p ps)]
  exact map_toContents ⟨readContents (p.2 :: ps.map snd),
    readPriority (extractAttribute (textOf (p :: ps)) priorityKey)⟩

theorem extractIntentFilters_textOf (h : Readable ps) (hps : ps ≠ []) :
    (extractIntentFilters (textOf ps)).map (·.toContents) =
      (segments (·.begins intentFilterTag) (ps.map snd)).filterMap fun s =>
        (readContents (s.1 :: s.2)).kept := by
  have hmark : "E: intent-filter".toList = tagMark intentFilterTag := by decide
  have hrun := run_linesOf intentFilterTag h (m := filterScanner)
    (fun line => by rw [← hmark]; rfl)
    (fun line hline => by
      have hblank : [' '] <+: line := IsPrefix.trans ⟨[' '], rfl⟩ hline
      simp [filterScanner, hblank]) marks_tags.1 []
  have hfold : ∀ (l : List ((Nat × Node) × List (Nat × Node))) (fs : List ManifestFilter),
      (∀ s ∈ l, Readable (s.1 :: s.2) ∧ s.1.2.begins intentFilterTag = true) →
      (l.foldl (fun out s => filterScanner.flush out ((linesOf (s.1 :: s.2)).map print)) fs).map
          (·.toContents) =
        fs.map (·.toContents) ++
          l.filterMap fun s => (readContents (s.1.2 :: s.2.map snd)).kept := by
    intro l
    induction l with
    | nil => intro fs _; simp
    | cons s l ih =>
      intro fs hl
      obtain ⟨⟨hs, htag⟩, hl⟩ := forall_mem_cons.mp hl
      have hread := processIntentFilterBlock_textOf hs htag
      have hflush : filterScanner.flush fs ((linesOf (s.1 :: s.2)).map print) =
          fs ++ (processIntentFilterBlock (textOf (s.1 :: s.2))).toList := rfl
      rw [foldl_cons, hflush, ih _ hl, filterMap_cons, ← hread, map_append,
        append_assoc]
      cases processIntentFilterBlock (textOf (s.1 :: s.2)) <;> simp
  rw [extractIntentFilters, splitOn_textOf hps, hrun, hfold _ _ fun s hs =>
      ⟨h.mono (subset_of_mem_segments hs), (mem_segments hs).1⟩, segments_map, filterMap_map]
  rfl

end Scans

end Morf.Apk.Filters
