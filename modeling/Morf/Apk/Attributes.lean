import Morf.Lib.LineMatches
import Morf.Apk.Tree

/-! The expressions of `apk/manifest_parser.go` that look for an attribute, and what they find in
the lines of a printed element. -/

namespace Morf.Apk

open Morf.Lib
open Morf.Lib.Search
open List Option Regex Element

def attrOpen (k : Name) : Text := androidText ++ k.text ++ ['(']

def quoteClose : Text := ")=\"".toList

def typeClose : Text := ")=(type ".toList

/-- `android:k\(.*?\)="([^"]+)"` -/
def attrStringRe (k : Name) : Regex :=
  .seq (.lit (attrOpen k)) (.seq (.star false .any) (.seq (.lit quoteClose)
    (.seq (.group (.plus (.set true [('"', '"')]))) (.lit ['"']))))

/-- `android:k\(.*?\)=\(type [^)]+\)(0x[0-9a-f]+)` -/
def attrHexRe (k : Name) : Regex :=
  .seq (.lit (attrOpen k)) (.seq (.star false .any) (.seq (.lit typeClose)
    (.seq (.plus (.set true [(')', ')')])) (.seq (.lit [')'])
      (.group (.seq (.lit ['0', 'x']) (.plus (.set false [('0', '9'), ('a', 'f')]))))))))

def quotedGroup (span : Text) : Text := Text.afterLast '"' span.dropLast

def hexGroup (span : Text) : Text := Text.afterLast ')' span

def findString (k : Name) (block : Text) : Option Text :=
  ((attrStringRe k).find (.start block)).map fun m => quotedGroup m.span

def findHex (k : Name) (block : Text) : Option Text :=
  ((attrHexRe k).find (.start block)).map fun m => hexGroup m.span

def quoted (t : Text) : Option Text :=
  let v := t.takeWhile (· ≠ '"')
  if v ≠ [] ∧ ['"'] <+: t.drop v.length then some v else none

def hexNumber (t : Text) : Option Text :=
  let h := t.takeWhile isHexDigit
  if h ≠ [] then some (['0', 'x'] ++ h) else none

def typed (t : Text) : Option Text :=
  let z := t.takeWhile (· ≠ ')')
  if z ≠ [] then past [')'] (past ['0', 'x'] hexNumber) (t.drop z.length) else none

abbrev quotedRe : Regex := .seq (.group (.plus (.set true [('"', '"')]))) (.lit ['"'])

abbrev numberRe : Regex := .group (.seq (.lit ['0', 'x']) (.plus (.set false [('0', '9'), ('a', 'f')])))

abbrev readText : Text → Option Text := along (past quoteClose quoted)

abbrev readHex : Text → Option Text := along (past typeClose typed)

abbrev seek (k : Name) (read : Text → Option Text) : Text → Option Text := search (past (attrOpen k) read)

theorem takeWhile_not_char (x : Char) (t : Text) :
    t.takeWhile (inSet true [(x, x)]) = t.takeWhile (· ≠ x) := by
  congr 1
  funext y
  rw [Bool.eq_iff_iff, inSet_not_char, decide_eq_true_iff]

theorem not_mem_takeWhile_ne (x : Char) (t : Text) : x ∉ t.takeWhile (· ≠ x) := fun h => by
  simpa using mem_takeWhile_imp h

theorem spans_lit_of_ne {w : Text} {xs : Text} (hc : c.rest = y :: xs) (hy : y ≠ x) :
    (lit (x :: w)).spans c = [] := by
  rw [spans_lit, hc, if_neg fun h => hy (cons_prefix_cons.mp h).1.symm]

theorem reads_quoted : Reads quotedGroup (.seq (.lit quoteClose) quotedRe) (past quoteClose quoted) := by
  intro c
  have hvalue : ∀ c : Cursor, quotedRe.spans c = ((quoted c.rest).map (· ++ ['"'])).toList := by
    intro c
    rw [spans_seq, spans_group, ← spans_seq,
      spans_plus_seq fun c x xs hc hx => spans_lit_of_ne hc (inSet_not_char.mp hx),
      takeWhile_not_char, spans_lit, Cursor.skip_rest, quoted]
    split
    · simp_all
    · split <;> simp_all
  rw [spans_lit_seq, past, hvalue, Cursor.skip_rest]
  split
  · cases hq : quoted (c.rest.drop quoteClose.length) with
    | none => simp
    | some v =>
      have hv : '"' ∉ v := by
        rw [quoted] at hq
        split at hq
        · cases hq
          exact not_mem_takeWhile_ne _ _
        · cases hq
      have hgroup : ∀ w, quotedGroup (w ++ (quoteClose ++ (v ++ ['"']))) = v := fun w => by
        have : w ++ (quoteClose ++ (v ++ ['"'])) = w ++ ")=".toList ++ '"' :: v ++ ['"'] := by
          simp [quoteClose]
        rw [quotedGroup, this, dropLast_concat, Text.afterLast_append hv]
      refine ⟨by simpa using hgroup [], ?_⟩
      rintro _ ⟨⟩ w
      exact (hgroup w).trans (hgroup []).symm
  · simp

theorem attrString_quotes {v t : Text} (hne : v ≠ []) (hv : '"' ∉ v) (prev : Option Char) :
    (seq (.lit quoteClose) quotedRe).spans ⟨prev, quoteClose ++ (v ++ '"' :: t)⟩ =
      [quoteClose ++ (v ++ ['"'])] := by
  have htake : (v ++ '"' :: t).takeWhile (· ≠ '"') = v := Text.takeWhile_ne_append hv t
  rw [spans_lit_seq, if_pos (List.prefix_append _ _), spans_seq, spans_group,
    ← spans_seq, spans_plus_seq fun c x xs hc hx =>
      spans_lit_of_ne hc (inSet_not_char.mp hx), Cursor.skip_rest, drop_left,
    takeWhile_not_char, htake, if_neg hne, spans_lit, Cursor.skip_rest, Cursor.skip_rest,
    drop_left, drop_left, if_pos (by simp)]
  rfl

theorem head_spans_attrString (k : Name) {w v t : Text} (hw : ')' ∉ w) (hn : '\n' ∉ w) (hne : v ≠ [])
    (hv : '"' ∉ v) (prev : Option Char) :
    ((attrStringRe k).spans ⟨prev, attrOpen k ++ (w ++ (quoteClose ++ (v ++ '"' :: t)))⟩).head? =
      some (attrOpen k ++ (w ++ (quoteClose ++ (v ++ ['"'])))) := by
  have hcons : quoteClose = ')' :: ['=', '"'] := by decide
  have hstart : ∀ (c : Cursor) x xs, c.rest = x :: xs → x ∈ w →
      (seq (.lit quoteClose) quotedRe).spans c = [] := by
    intro c x xs hc hx
    have hne : ¬ quoteClose <+: x :: xs := fun h => by
      rw [hcons, cons_prefix_cons] at h
      exact hw (h.1 ▸ hx)
    rw [spans_lit_seq, hc, if_neg hne]
  have hgap : ∀ p, ((seq (.star false .any) (.seq (.lit quoteClose) quotedRe)).spans
      ⟨p, quoteClose ++ (v ++ '"' :: t)⟩).head? = some (quoteClose ++ (v ++ ['"'])) := fun p => by
    have hspans := attrString_quotes (t := t) hne hv p
    rw [hcons, cons_append] at hspans ⊢
    rw [spans_gap, hspans]
    rfl
  rw [attrStringRe, spans_lit_seq, if_pos (List.prefix_append _ _), head?_map]
  have hskip : (⟨prev, attrOpen k ++ (w ++ (quoteClose ++ (v ++ '"' :: t)))⟩ : Cursor).skip (attrOpen k) =
      ⟨(attrOpen k).getLast?.or prev, w ++ (quoteClose ++ (v ++ '"' :: t))⟩ := by
    rw [Cursor.skip, drop_left]
  rw [hskip, spans_gap_append _ _ hstart hn, head?_map, Cursor.skip, drop_left, hgap]
  rfl

theorem inSet_hex : inSet false [('0', '9'), ('a', 'f')] = isHexDigit := by
  funext c
  simp [inSet, isHexDigit]

theorem head_spans_number (c : Cursor) :
    (numberRe.spans c).head? = past ['0', 'x'] hexNumber c.rest := by
  rw [spans_group, spans_lit_seq, past]
  split
  · rw [head?_map, head_spans_plus, inSet_hex, hexNumber, Cursor.skip_rest]
    split <;> simp_all
  · rfl

theorem paren_not_mem_number {t : Text} (h : past ['0', 'x'] hexNumber t = some n) : ')' ∉ n := by
  rw [past] at h
  split at h
  · rw [hexNumber] at h
    split at h
    · cases h
      intro hmem
      rcases mem_append.mp hmem with hmem | hmem
      · exact absurd hmem (by decide)
      · exact absurd (mem_takeWhile_imp hmem) (by decide)
    · cases h
  · cases h

theorem reads_typed : Reads hexGroup
    (.seq (.plus (.set true [(')', ')')])) (.seq (.lit [')']) numberRe)) typed := by
  intro c
  have hhead : ∀ c : Cursor, ((seq (.lit [')']) numberRe).spans c).head? =
      (past [')'] (past ['0', 'x'] hexNumber) c.rest).map (')' :: ·) := by
    intro c
    rw [spans_lit_seq, past]
    split
    · rw [head?_map, head_spans_number, Cursor.skip_rest]
      rfl
    · rfl
  rw [spans_plus_seq, takeWhile_not_char, typed]
  · split
    · simp_all
    · rw [head?_map, hhead, Cursor.skip_rest]
      cases hn : past [')'] (past ['0', 'x'] hexNumber)
          (c.rest.drop (c.rest.takeWhile (· ≠ ')')).length) with
      | none => simp
      | some n =>
        have hparen : ')' ∉ n := by
          rw [past] at hn
          split at hn
          · exact paren_not_mem_number hn
          · cases hn
        have hgroup : ∀ w, hexGroup (w ++ ')' :: n) = n := Text.afterLast_append hparen
        refine ⟨by simpa using hgroup _, ?_⟩
        rintro _ ⟨⟩ w
        rw [← append_assoc, hgroup, hgroup]
  · intro c x xs hc hx
    rw [spans_lit_seq, hc,
      if_neg fun h => inSet_not_char.mp hx (cons_prefix_cons.mp h).1.symm]

theorem findString_eq (k : Name) (block : Text) :
    findString k block = seek k readText block :=
  (reads_quoted.along.lit (attrOpen k)).find _

theorem findHex_eq (k : Name) (block : Text) :
    findHex k block = seek k readHex block :=
  (((reads_typed.lit typeClose).along).lit (attrOpen k)).find _

section Lines

variable {t : Text}

theorem androidText_eq : androidText = ['a', 'n', 'd', 'r', 'o', 'i', 'd', ':'] := by decide

theorem attrOpen_eq (k : Name) :
    attrOpen k = ['a', 'n', 'd', 'r', 'o', 'i', 'd', ':'] ++ (k.text ++ ['(']) := by
  rw [attrOpen, androidText_eq, append_assoc]

theorem colon_mem_attrOpen : ':' ∈ attrOpen k := by
  rw [attrOpen_eq]
  exact mem_append_left _ (by decide)

theorem paren_mem_attrOpen : '(' ∈ attrOpen k := by simp [attrOpen_eq]

theorem n_mem_attrOpen : 'n' ∈ attrOpen k := by
  rw [attrOpen_eq]
  exact mem_append_left _ (by decide)

theorem attrOpen_not_mem (h : isNameChar c = false) (hc : c ≠ ':') (hc' : c ≠ '(') :
    c ∉ attrOpen k := by
  have hletters : ∀ x ∈ ['a', 'n', 'd', 'r', 'o', 'i', 'd'], isNameChar x = true := by
    simp only [forall_mem_cons, not_mem_nil, false_imp_iff, implies_true]
    decide
  rw [attrOpen_eq]
  intro hmem
  rcases mem_append.mp hmem with hmem | hmem
  · rcases mem_append.mp (show c ∈ ['a', 'n', 'd', 'r', 'o', 'i', 'd'] ++ [':'] from hmem)
      with hmem | hmem
    · exact Bool.false_ne_true (h.symm.trans (hletters c hmem))
    · exact hc (mem_singleton.mp hmem)
  · rcases mem_append.mp hmem with hmem | hmem
    · exact k.not_mem h hmem
    · exact hc' (mem_singleton.mp hmem)

theorem separator_not_mem (hc : c ∈ [' ', '=', ')', '"', '\n']) : c ∉ attrOpen k := by
  have hsep : ∀ c ∈ [' ', '=', ')', '"', '\n'], isNameChar c = false ∧ c ≠ ':' ∧ c ≠ '(' := by
    simp only [forall_mem_cons, not_mem_nil, false_imp_iff, implies_true]
    decide
  obtain ⟨h, hcolon, hparen⟩ := hsep c hc
  exact attrOpen_not_mem h hcolon hparen

def Key.opened (k : Name) : Key → Option Text
  | .android name id => if name = k then some (['0', 'x'] ++ id.text ++ [')']) else none
  | .other .. => none

variable {read : Text → Option Text}

theorem seek_segment (hx : x ∈ attrOpen k) (hy : y ∉ attrOpen k) (hw : x ∉ w) :
    seek k read (w ++ y :: t) = seek k read t := search_segment hx hy hw

theorem seek_cons (c : Char) (t : Text) :
    seek k read (c :: t) = (past (attrOpen k) read (c :: t)).or (seek k read t) := rfl

theorem search_indent (n : Nat) (c : Char) (hc : c ≠ '(') :
    seek k read (replicate n ' ' ++ c :: ':' :: ' ' :: t) =
      seek k read t := by
  have hw : '(' ∉ replicate n ' ' ++ [c, ':'] := by simp [mem_replicate, Ne.symm hc]
  have hskip : seek k read ((replicate n ' ' ++ [c, ':']) ++ ' ' :: t) =
      seek k read t :=
    seek_segment paren_mem_attrOpen (separator_not_mem (by decide)) hw
  simpa using hskip

def elementText (name : Name) (line : Digits) : Text :=
  ['E', ':', ' '] ++ name.text ++ " (line=".toList ++ line.text ++ [')']

theorem search_element (n : Nat) (name : Name) (line : Digits) :
    seek k read (replicate n ' ' ++ (elementText name line ++ t)) =
      seek k read t := by
  have htext : elementText name line ++ t = 'E' :: ':' :: ' ' ::
      (name.text ++ ' ' :: ("(line".toList ++ '=' :: (line.text ++ ')' :: t))) := by
    simp [elementText]
  have hspace : ' ' ∉ attrOpen k := separator_not_mem (by decide)
  have heq : '=' ∉ attrOpen k := separator_not_mem (by decide)
  have hparen : ')' ∉ attrOpen k := separator_not_mem (by decide)
  rw [htext, search_indent n 'E' (by decide),
    seek_segment paren_mem_attrOpen hspace (name.not_mem (by decide)),
    seek_segment colon_mem_attrOpen heq (by decide),
    seek_segment colon_mem_attrOpen hparen (line.not_mem (by decide))]

theorem search_key (key : Key) :
    seek k read (key.text ++ '=' :: t) =
      ((key.opened k).bind fun u => read (u ++ '=' :: t)).or (seek k read t) := by
  have heq : '=' ∉ attrOpen k := separator_not_mem (by decide)
  have hparen : ')' ∉ attrOpen k := separator_not_mem (by decide)
  cases key with
  | other space name foreign =>
    have hno : '(' ∉ (Key.other space name foreign).text := by
      cases space with
      | none => exact name.not_mem (by decide)
      | some space =>
        simp only [Key.text, mem_append, mem_singleton, not_or]
        exact ⟨⟨space.not_mem (by decide), by decide⟩, name.not_mem (by decide)⟩
    rw [seek_segment paren_mem_attrOpen heq hno]
    rfl
  | android name id =>
    have hno : ':' ∉ name.text ++ ['(', '0', 'x'] ++ id.text := by
      simp only [mem_append, not_or]
      exact ⟨⟨name.not_mem (by decide), by decide⟩, id.not_mem (by decide)⟩
    -- from the second character on, no opening is left before the parenthesis that closes the key
    have htail : seek k read (['n', 'd', 'r', 'o', 'i', 'd', ':'] ++
        (name.text ++ ['(', '0', 'x'] ++ id.text ++ ')' :: '=' :: t)) =
        seek k read t := by
      rw [seek, attrOpen_eq, cons_append, search_lacks_head (by decide), ← cons_append,
        ← attrOpen_eq, search_segment colon_mem_attrOpen hparen hno]
      exact seek_segment (w := []) colon_mem_attrOpen heq (by simp)
    have htext : (Key.android name id).text ++ '=' :: t =
        'a' :: (['n', 'd', 'r', 'o', 'i', 'd', ':'] ++
          (name.text ++ ['(', '0', 'x'] ++ id.text ++ ')' :: '=' :: t)) := by
      rw [Key.text, androidText_eq]
      simp
    rw [htext, seek_cons, htail, ← htext, Key.opened]
    congr 1
    split
    · rename_i hname
      subst hname
      have : (Key.android name id).text ++ '=' :: t =
          attrOpen name ++ (['0', 'x'] ++ id.text ++ [')'] ++ '=' :: t) := by
        simp [Key.text, attrOpen]
      rw [this, past_append]
      rfl
    · rename_i hname
      refine past_eq_none fun h => hname ?_
      obtain ⟨u, hu⟩ := h
      have hu : k.text ++ '(' :: u =
          name.text ++ '(' :: (['0', 'x'] ++ id.text ++ [')'] ++ '=' :: t) := by
        rw [attrOpen, Key.text] at hu
        simpa using hu
      exact Name.ext (Text.eq_of_append_cons (k.not_mem (by decide)) (name.not_mem (by decide)) hu).symm

theorem quoteClose_eq : quoteClose = [')', '=', '"'] := by decide

theorem along_quote {w u : Text} (hw : '"' ∉ w) (hn : '\n' ∉ w) :
    readText (w ++ '"' :: u) =
      (if [')', '='] <:+ w then quoted u else none).or (readText u) := by
  unfold readText
  induction w with
  | nil =>
    have hno : ¬ quoteClose <+: '"' :: u := by simp [quoteClose_eq]
    rw [nil_append, along, past_eq_none hno, if_neg (by decide), if_neg (by simp)]
  | cons z w ih =>
    have hz : z ≠ '\n' := fun h => hn (by simp [h])
    obtain ⟨hzq, hwq⟩ : z ≠ '"' ∧ '"' ∉ w := by simpa [eq_comm] using hw
    have ih := ih hwq fun h => hn (mem_cons_of_mem z h)
    rw [cons_append, along, if_neg hz, ih]
    by_cases hend : z :: w = [')', '=']
    · obtain ⟨rfl, rfl⟩ := cons.inj hend
      have htext : ')' :: (['='] ++ '"' :: u) = quoteClose ++ u := by simp [quoteClose_eq]
      rw [htext, past_append, if_neg (show ¬ [')', '='] <:+ ['='] by decide), none_or,
        if_pos (suffix_refl _)]
    · have hno : ¬ quoteClose <+: z :: (w ++ '"' :: u) := fun h => hend ?_
      · have hsuffix : [')', '='] <:+ z :: w ↔ [')', '='] <:+ w := by
          rw [suffix_cons_iff]
          exact or_iff_right (Ne.symm hend)
        rw [past_eq_none hno, none_or, if_congr hsuffix rfl rfl]
      · -- what follows `)=` up to the quote is empty
        rw [quoteClose_eq, cons_prefix_cons] at h
        obtain ⟨rfl, h⟩ := h
        cases w with
        | nil => simp at h
        | cons y w =>
          rw [cons_append, cons_prefix_cons] at h
          obtain ⟨rfl, h⟩ := h
          cases w with
          | nil => rfl
          | cons y w =>
            rw [cons_append, cons_prefix_cons] at h
            exact absurd (by rw [h.1]; simp) hwq

theorem quoted_append (hv : '"' ∉ v) (u : Text) :
    quoted (v ++ '"' :: u) = if v = [] then none else some v := by
  rw [quoted, Text.takeWhile_ne_append hv, drop_left]
  by_cases h : v = [] <;> simp [h]

theorem suffix_opening (v w : Text) : [')', '='] <:+ v ++ (attrOpen k ++ w) ↔ [')', '='] <:+ w := by
  have hrev : (v ++ (attrOpen k ++ w)).reverse =
      w.reverse ++ '(' :: (k.text.reverse ++ androidText.reverse ++ v.reverse) := by
    simp [attrOpen]
  rw [← List.reverse_prefix, ← List.reverse_prefix, hrev]
  exact prefix_append_cons (by decide)

theorem attrOpen_ne_nil (k : Name) : attrOpen k ≠ [] := by simp [attrOpen_eq]

theorem search_quote {v u : Text} (hv : '"' ∉ v) (hn : '\n' ∉ v) :
    seek k readText (v ++ '"' :: u) =
      (if attrOpen k <:+: v then
        (if [')', '='] <:+ v then quoted u else none).or (readText u)
      else none).or (seek k readText u) := by
  have hquote : '"' ∉ attrOpen k := separator_not_mem (by decide)
  refine search_const (attrOpen_ne_nil k) hquote ?_
  rintro a w rfl
  have hw : w <:+ a ++ (attrOpen k ++ w) := ⟨a ++ attrOpen k, by simp⟩
  rw [along_quote (fun h => hv (hw.subset h)) fun h => hn (hw.subset h),
    if_congr (suffix_opening a w) rfl rfl]

/-- The attribute `android:k` itself, if its value is a text that is not empty. -/
def Attr.named (k : Name) (a : Attr) : Option Text :=
  match a.key, a.value with
  | .android name _, .string v => if name = k ∧ v.text ≠ [] then some v.text else none
  | _, _ => none

/-- A value that itself looks like the start of an attribute: the search takes its closing quote
for an opening one, and reads what is printed next. -/
def Attr.forged (k : Name) (a : Attr) : Option Text :=
  match a.value with
  | .string v => if attrOpen k <:+: v.text ∧ [')', '='] <:+ v.text then some rawText else none
  | .typed .. => none

def Attr.answer (k : Name) (a : Attr) : Option Text := (a.named k).or (a.forged k)

theorem along_close_paren (ht : LineEnd t) : readText (')' :: t) = none :=
  along_lacks (x := '"') (w := [')']) (by decide) (by decide) (by decide) ht

theorem search_typed (type data : Digits) (ht : LineEnd t) :
    seek k read ((Value.typed type data).text ++ t) =
      seek k read t := by
  have hparen : ')' ∉ attrOpen k := separator_not_mem (by decide)
  have hnl : '\n' ∉ attrOpen k := separator_not_mem (by decide)
  have htype : ':' ∉ typeText ++ type.text := by
    rw [mem_append, not_or]
    exact ⟨by decide, type.not_mem (by decide)⟩
  have htext : (Value.typed type data).text ++ t =
      (typeText ++ type.text) ++ ')' :: ((['0', 'x'] ++ data.text) ++ t) := by
    simp [Value.text]
  rw [htext, seek_segment colon_mem_attrOpen hparen htype]
  exact search_lineEnd colon_mem_attrOpen hnl (data.not_mem_number (by decide) (by decide)) ht

theorem search_value (a : Attr) (ht : LineEnd t) :
    seek k readText (a.value.text ++ t) =
      (a.forged k).or (seek k readText t) := by
  have hparen : ')' ∉ attrOpen k := separator_not_mem (by decide)
  have hquote : '"' ∉ attrOpen k := separator_not_mem (by decide)
  obtain ⟨key, value⟩ := a
  cases value with
  | typed type data => exact search_typed type data ht
  | string v =>
    obtain ⟨hv, hn⟩ := v.valid
    have htext : (Value.string v).text ++ t =
        [] ++ '"' :: (v.text ++ '"' :: (rawText ++ '"' :: (v.text ++ '"' :: ')' :: t))) := by
      simp [Value.text]
    have halong : readText (rawText ++ '"' :: (v.text ++ '"' :: ')' :: t)) =
        if [')', '='] <:+ v.text then quoted (')' :: t) else none := by
      rw [along_quote (by decide) (by decide), if_neg (by decide), none_or,
        along_quote hv hn, along_close_paren ht, or_none]
    have hraw : quoted (rawText ++ '"' :: (v.text ++ '"' :: ')' :: t)) = some rawText := by
      rw [quoted_append (by decide), if_neg (by decide)]
    have hlast : seek k readText (')' :: t) =
        seek k readText t :=
      seek_segment (w := []) paren_mem_attrOpen hparen (by simp)
    change seek k _ ((Value.string v).text ++ t) = _
    rw [htext, seek_segment paren_mem_attrOpen hquote (by simp), search_quote hv hn, hraw, halong,
      seek_segment n_mem_attrOpen hquote (by decide), search_quote hv hn, along_close_paren ht,
      hlast]
    rw [Attr.forged]
    by_cases ho : attrOpen k <:+: v.text <;> by_cases he : [')', '='] <:+ v.text <;> simp [ho, he]

theorem along_quoteClose {w : Text} (hw : ')' ∉ w) (hn : '\n' ∉ w) (u : Text) :
    readText (w ++ (quoteClose ++ u)) = (quoted u).or (readText ('=' :: '"' :: u)) := by
  have hcons : quoteClose ++ u = ')' :: '=' :: '"' :: u := by simp [quoteClose_eq]
  have hskip : readText (w ++ (quoteClose ++ u)) = readText (quoteClose ++ u) := by
    rw [readText, quoteClose_eq, along_append hw hn]
  rw [hskip, hcons, readText, along, ← hcons, past_append, if_neg (by decide)]

/-- After the opening of the attribute that is searched for, its value is read. -/
theorem read_named (a : Attr) (ht : LineEnd t) :
    ((a.key.opened k).bind fun u =>
      readText (u ++ '=' :: (a.value.text ++ t))) = a.named k := by
  obtain ⟨key, value⟩ := a
  cases key with
  | other space name foreign => rfl
  | android name id =>
    rw [Key.opened]
    split
    · rename_i hname
      subst hname
      change readText (['0', 'x'] ++ id.text ++ [')'] ++ '=' :: (value.text ++ t)) = _
      cases value with
      | typed type data =>
        have htext : ['0', 'x'] ++ id.text ++ [')'] ++ '=' :: ((Value.typed type data).text ++ t) =
            (['0', 'x'] ++ id.text) ++ ')' :: '=' :: (typeText ++ type.text) ++ ')' ::
              (['0', 'x'] ++ data.text) ++ t := by
          simp [Value.text]
        rw [htext]
        refine along_lacks (x := '"') (by decide) (by decide) ?_ ht
        simp only [mem_append, mem_cons, not_or]
        exact ⟨⟨⟨⟨by decide, by decide, by simp⟩, id.not_mem (by decide)⟩, by decide, by decide, by decide,
          type.not_mem (by decide)⟩, by decide, ⟨by decide, by decide, by simp⟩,
          data.not_mem (by decide)⟩
      | string v =>
        obtain ⟨hv, hn⟩ := v.valid
        have htext : ['0', 'x'] ++ id.text ++ [')'] ++ '=' :: ((Value.string v).text ++ t) =
            (['0', 'x'] ++ id.text) ++ (quoteClose ++
              (v.text ++ '"' :: (rawText ++ '"' :: (v.text ++ '"' :: ')' :: t)))) := by
          simp [Value.text, quoteClose_eq]
        rw [htext, along_quoteClose (id.not_mem_number (by decide) (by decide))
          (id.not_mem_number (by decide) (by decide)), quoted_append hv]
        by_cases hempty : v.text = []
        · have hrest : '=' :: '"' :: (v.text ++ '"' :: (rawText ++ '"' :: (v.text ++ '"' :: ')' :: t))) =
              (['=', '"', '"'] ++ rawText ++ ['"', '"']) ++ ')' :: t := by simp [hempty]
          have hlacks : readText
              ((['=', '"', '"'] ++ rawText ++ ['"', '"']) ++ ')' :: t) = none := by
            rw [readText, quoteClose_eq, along_append (by decide) (by decide), ← quoteClose_eq]
            exact along_close_paren ht
          rw [hrest, hlacks, if_pos hempty]
          simp [Attr.named, hempty]
        · rw [if_neg hempty]
          simp [Attr.named, hempty]
    · rename_i hname
      cases value <;> simp [Attr.named, hname]

theorem search_attr (a : Attr) (ht : LineEnd t) :
    seek k readText (a.text ++ t) =
      (a.answer k).or (seek k readText t) := by
  have htext : a.text ++ t = a.key.text ++ '=' :: (a.value.text ++ t) := by simp [Attr.text]
  rw [htext, search_key, search_value a ht, read_named a ht, Attr.answer, Option.or_assoc]

theorem typeClose_eq : typeClose = [')', '=', '(', 't', 'y', 'p', 'e', ' '] := by decide

theorem hexNumber_append {d : Text} (hd : d ≠ []) (hhex : ∀ x ∈ d, isHexDigit x = true)
    (ht : ∀ x ∈ t.head?, isHexDigit x = false) : hexNumber (d ++ t) = some (['0', 'x'] ++ d) := by
  have htake : (d ++ t).takeWhile isHexDigit = d := by
    rw [takeWhile_append_of_pos hhex]
    cases t with
    | nil => simp
    | cons x t => simp [ht x rfl]
  rw [hexNumber, htake, if_pos hd]

theorem isHexDigit_lineEnd (ht : LineEnd t) : ∀ x ∈ t.head?, isHexDigit x = false :=
  fun x hx => by rw [ht x hx]; decide

theorem typed_append (hz : ')' ∉ z) (u : Text) :
    typed (z ++ ')' :: u) = if z = [] then none else past ['0', 'x'] hexNumber u := by
  have hpast : past [')'] (past ['0', 'x'] hexNumber) (')' :: u) = past ['0', 'x'] hexNumber u := by
    change past [')'] _ ([')'] ++ u) = _
    rw [past_append]
  rw [typed, Text.takeWhile_ne_append hz, drop_left, hpast]
  by_cases h : z = [] <;> simp [h]

theorem hexNumber_paren (w t : Text) : hexNumber (w ++ ')' :: t) = hexNumber w := by
  have htake : (w ++ ')' :: t).takeWhile isHexDigit = w.takeWhile isHexDigit := by
    rw [takeWhile_append, takeWhile_cons_of_neg (by decide), append_nil, ite_eq_right_iff]
    intro h
    exact ((List.takeWhile_prefix isHexDigit).eq_of_length h).symm
  rw [hexNumber, htake, hexNumber]

theorem past_number_paren (w t : Text) :
    past ['0', 'x'] hexNumber (w ++ ')' :: t) = past ['0', 'x'] hexNumber w := by
  rw [past, past, if_congr (prefix_append_cons (by decide)) rfl rfl]
  split
  · rename_i h
    obtain ⟨v, rfl⟩ := h
    rw [append_assoc, drop_left, drop_left, hexNumber_paren]
  · rfl

theorem typed_lineEnd (ht : LineEnd t) : typed (w ++ ')' :: t) = typed (w ++ [')']) := by
  by_cases hw : ')' ∈ w
  · obtain ⟨z, v, rfl, hz⟩ := eq_append_cons_of_mem hw
    rw [append_assoc, append_assoc, cons_append, cons_append, typed_append hz,
      typed_append hz, past_number_paren, past_number_paren]
  · have hnone : past ['0', 'x'] hexNumber t = none :=
      past_eq_none fun h =>
        absurd (prefix_nil.mp ((prefix_append_lineEnd (w := []) (by decide) ht).mp h)) (by simp)
    rw [typed_append hw, typed_append hw, hnone]
    rfl

theorem past_typeClose_lineEnd {w : Text} (ht : LineEnd t) (z : Char) :
    past typeClose typed (z :: (w ++ ')' :: t)) = past typeClose typed (z :: (w ++ [')'])) := by
  by_cases h : typeClose <+: z :: w
  · obtain ⟨v, hv⟩ := h
    rw [← cons_append, ← cons_append, ← hv, append_assoc, append_assoc,
      past_append, past_append, typed_lineEnd ht]
  · have hno : ∀ u, ¬ typeClose <+: z :: (w ++ ')' :: u) := fun u hu => h (by
      rw [typeClose_eq, cons_prefix_cons, prefix_append_cons (by decide)] at hu
      rwa [typeClose_eq, cons_prefix_cons])
    rw [past_eq_none (hno t), past_eq_none (hno [])]

theorem along_typed_lineEnd {w : Text} (ht : LineEnd t) :
    readHex (w ++ ')' :: t) = readHex (w ++ [')']) := by
  unfold readHex
  induction w with
  | nil =>
    have hnone : ∀ u, LineEnd u → readHex ([')'] ++ u) = none := fun u hu =>
      along_lacks (x := '=') (by decide) (by decide) (by decide) hu
    exact (hnone t ht).trans (hnone [] lineEnd_nil).symm
  | cons z w ih => rw [cons_append, cons_append, along, along, past_typeClose_lineEnd ht, ih]

theorem search_typed_lineEnd {w : Text} (ht : LineEnd t) :
    seek k readHex (w ++ ')' :: t) =
      (seek k readHex (w ++ [')'])).or
        (seek k readHex t) := by
  have hparen : ')' ∉ attrOpen k := separator_not_mem (by decide)
  induction w with
  | nil =>
    have hskip : ∀ u, seek k readHex (')' :: u) =
        seek k readHex u := fun u =>
      seek_segment (w := []) paren_mem_attrOpen hparen (by simp)
    have hnil : seek k readHex [] = none :=
      past_eq_none fun h => attrOpen_ne_nil k (prefix_nil.mp h)
    rw [nil_append, nil_append, hskip, hskip, hnil, none_or]
  | cons z w ih =>
    have hpast : past (attrOpen k) readHex (z :: (w ++ ')' :: t)) =
        past (attrOpen k) readHex (z :: (w ++ [')'])) := by
      by_cases h : attrOpen k <+: z :: w
      · obtain ⟨v, hv⟩ := h
        rw [← cons_append, ← cons_append, ← hv, append_assoc, append_assoc,
          past_append, past_append, along_typed_lineEnd ht]
      · have hno : ∀ u, ¬ attrOpen k <+: z :: (w ++ ')' :: u) := fun u hu =>
          h ((prefix_append_cons (w := z :: w) hparen).mp hu)
        rw [past_eq_none (hno t), past_eq_none (hno [])]
    rw [cons_append, cons_append, seek_cons, seek_cons, hpast, ih, Option.or_assoc]

def Attr.number (k : Name) (a : Attr) : Option Text :=
  match a.key, a.value with
  | .android name _, .typed _ data => if name = k then some (['0', 'x'] ++ data.text) else none
  | _, _ => none

def Attr.hexAnswer (k : Name) (a : Attr) : Option Text :=
  match a.value with
  | .typed .. => a.number k
  | .string _ => findHex k a.text

theorem search_hex_attr (a : Attr) (ht : LineEnd t) :
    seek k readHex (a.text ++ t) =
      (a.hexAnswer k).or (seek k readHex t) := by
  obtain ⟨key, value⟩ := a
  cases value with
  | string v =>
    have htext : ∀ u, (⟨key, .string v⟩ : Attr).text ++ u =
        (key.text ++ '=' :: '"' :: (v.text ++ '"' :: (rawText ++ '"' :: (v.text ++ ['"'])))) ++
          ([')'] ++ u) := fun u => by simp [Attr.text, Value.text]
    have halone := htext []
    rw [append_nil, append_nil] at halone
    rw [htext, singleton_append, search_typed_lineEnd ht, ← halone, ← findHex_eq]
    rfl
  | typed type data =>
    have htext : (⟨key, .typed type data⟩ : Attr).text ++ t =
        key.text ++ '=' :: ((Value.typed type data).text ++ t) := by simp [Attr.text]
    rw [htext, search_key, search_typed type data ht]
    congr 1
    cases key with
    | other space name foreign => rfl
    | android name id =>
      by_cases hname : name = k
      · have hread : readHex
            (['0', 'x'] ++ id.text ++ [')'] ++ '=' :: ((Value.typed type data).text ++ t)) =
            some (['0', 'x'] ++ data.text) := by
          have htext : ['0', 'x'] ++ id.text ++ [')'] ++ '=' :: ((Value.typed type data).text ++ t) =
              (['0', 'x'] ++ id.text) ++ (typeClose ++ ((['0', 'x'] ++ type.text) ++
                ')' :: (['0', 'x'] ++ (data.text ++ t)))) := by
            rw [Value.text, show typeText = ['(', 't', 'y', 'p', 'e', ' ', '0', 'x'] by decide,
              typeClose_eq]
            simp
          have hskip : readHex ((['0', 'x'] ++ id.text) ++ (typeClose ++
              ((['0', 'x'] ++ type.text) ++ ')' :: (['0', 'x'] ++ (data.text ++ t))))) =
              readHex (typeClose ++
              ((['0', 'x'] ++ type.text) ++ ')' :: (['0', 'x'] ++ (data.text ++ t)))) := by
            rw [readHex, typeClose_eq, along_append (id.not_mem_number (by decide) (by decide))
              (id.not_mem_number (by decide) (by decide))]
          rw [htext, hskip]
          refine along_of_some ?_
          rw [past_append, typed_append (type.not_mem_number (by decide) (by decide)),
            if_neg (by simp), past_append, hexNumber_append data.valid.1
              (List.all_eq_true.mp data.valid.2) (isHexDigit_lineEnd ht)]
        rw [Key.opened, if_pos hname]
        refine hread.trans ?_
        simp [Attr.hexAnswer, Attr.number, hname]
      · simp [Key.opened, Attr.hexAnswer, Attr.number, hname]

def joinLines (lines : List Text) : Text := ['\n'].intercalate lines

theorem findSome?_cons_or {α β : Type} (f : α → Option β) (a : α) (l : List α) :
    (a :: l).findSome? f = (f a).or (l.findSome? f) := by
  rw [findSome?_cons]
  cases f a <;> rfl

/-- In printed lines a search finds what it finds in the first line that has an answer. -/
theorem search_lines {ρ : Type} {print : ρ → Text} {g : ρ → Option Text} {rows : List ρ}
    (hrow : ∀ r ∈ rows, ∀ t, LineEnd t → seek k read (print r ++ t) =
      (g r).or (seek k read t)) :
    seek k read (joinLines (rows.map print)) = rows.findSome? g := by
  have hnil : seek k read [] = none :=
    past_eq_none fun h => attrOpen_ne_nil k (prefix_nil.mp h)
  have hnl : '\n' ∉ attrOpen k := separator_not_mem (by decide)
  have hfollowed : ∀ l : List ρ, (∀ r ∈ l, r ∈ rows) →
      seek k read (followed (l.map print)) = l.findSome? g := by
    intro l hl
    induction l with
    | nil => exact hnil
    | cons r l ih =>
      obtain ⟨hr, hl⟩ := forall_mem_cons.mp hl
      have hskip : ∀ u, seek k read ('\n' :: u) =
          seek k read u := fun u =>
        seek_segment (w := []) paren_mem_attrOpen hnl (by simp)
      rw [map_cons, followed_cons, hskip, hrow r hr _ (lineEnd_followed _), ih hl,
        findSome?_cons_or]
  cases rows with
  | nil => exact hnil
  | cons r rows =>
    rw [joinLines, map_cons, intercalate_cons,
      hrow r mem_cons_self _ (lineEnd_followed _),
      hfollowed rows fun _ => mem_cons_of_mem r, findSome?_cons_or]

end Lines

def Element.block (n : Nat) (e : Element) : Text := joinLines ((shift n e.rows).map printLine)

mutual

theorem Element.rows_isSpace : ∀ (e : Element), ∀ r ∈ e.rows, r.2.isSpace = false
  | .mk tag line attrs children => by
    intro r hr
    rw [rows, mem_cons, mem_append, List.mem_map] at hr
    rcases hr with rfl | ⟨a, -, rfl⟩ | hr
    · rfl
    · rfl
    · exact rowsIn_isSpace children r hr

theorem Element.rowsIn_isSpace : ∀ (es : List Element), ∀ r ∈ rowsIn es, r.2.isSpace = false
  | [] => by simp [rowsIn]
  | e :: es => by
    intro r hr
    rw [rowsIn, mem_append, shift, List.mem_map] at hr
    rcases hr with ⟨r, hr, rfl⟩ | hr
    · exact rows_isSpace e r hr
    · exact rowsIn_isSpace es r hr

end

theorem Element.search_block {read : Text → Option Text} {answer : Attr → Option Text}
    (hattr : ∀ a t, LineEnd t → seek k read (a.text ++ t) =
      (answer a).or (seek k read t)) (n : Nat) (e : Element) :
    seek k read (e.block n) = e.printedAttrs.findSome? answer := by
  rw [block, search_lines (g := fun r => r.2.attr?.bind answer) fun r hr t ht => ?_, printedAttrs,
    shift, findSome?_map]
  · induction e.rows with
    | nil => rfl
    | cons r rows ih =>
      rw [findSome?_cons_or, ih, Function.comp_apply]
      cases hr : r.2.attr? <;> simp [hr, findSome?_cons_or]
  · obtain ⟨⟨m, row⟩, hrow, rfl⟩ := List.mem_map.mp hr
    have hspace := e.rows_isSpace _ hrow
    rw [printLine, append_assoc]
    cases row with
    | space => cases hspace
    | element tag line => exact search_element _ tag.name line
    | attr a => exact (search_indent _ 'A' (by decide)).trans (hattr a t ht)

theorem Element.findString_block (k : Name) (n : Nat) (e : Element) :
    findString k (e.block n) = e.printedAttrs.findSome? (Attr.answer k) :=
  (findString_eq k _).trans (e.search_block (fun a _ => search_attr a) n)

theorem Element.findHex_block (k : Name) (n : Nat) (e : Element) :
    findHex k (e.block n) = e.printedAttrs.findSome? (Attr.hexAnswer k) :=
  (findHex_eq k _).trans (e.search_block (fun a _ => search_hex_attr a) n)

end Morf.Apk
