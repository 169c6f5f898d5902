import Mathlib.Algebra.Group.Nat.Defs
import Mathlib.Data.Char
import Mathlib.Data.List.Lex
import Mathlib.Data.List.MinMax
import Morf.Detect.PrivateKeys
import Morf.Scan.Workspace

/-! `CompareScans` of `utils/comparison.go`, on the findings that two jobs make of one
artifact, each in its own workspace. -/

namespace Morf.Scan

open Morf.Lib Morf.Detect
open List Option Text

variable {S : Type}

/-- The nearest integer with 53 significant bits, ties to even. -/
def roundFloat (n : Nat) : Nat :=
  let unit := 2 ^ (n.log2 - 52)
  let q := n / unit
  let r := 2 * (n % unit)
  (if r < unit ∨ (r = unit ∧ q % 2 = 0) then q else q + 1) * unit

/-- A line number as `%.0f` prints it after its way through JSON. -/
def lineText (n : Int) : Text :=
  let digits := Nat.toDigits 10 (roundFloat n.natAbs)
  if n < 0 then '-' :: digits else digits

def getSecretKey (s : SecretModel S) : Text :=
  s.secretString ++ '|' :: (s.fileLocation ++ '|' :: lineText s.lineNo)

structure ComparisonResult (S : Type) where
  added : List (SecretModel S)
  removed : List (SecretModel S)
  unchanged : List (SecretModel S)

def compareScans (secrets₁ secrets₂ : List (SecretModel S)) : ComparisonResult S where
  added := secrets₂.filter fun s => getSecretKey s ∉ secrets₁.map getSecretKey
  removed := secrets₁.filter fun s => getSecretKey s ∉ secrets₂.map getSecretKey
  unchanged := secrets₁.filter fun s => getSecretKey s ∈ secrets₂.map getSecretKey

/-- A line that ripgrep reports, its path taken below the workspace. -/
structure TreeLine where
  path : Text
  number : Nat
  line : Text

def TreeLine.output (w : Text) (l : TreeLine) : Text := rgLine (w ++ '/' :: l.path) l.number l.line

def scanSecrets (jwtIsPublicCert : Text → Bool) (precisionScore : Text → S) (c : PatternCache)
    (w : Text) (lines : List TreeLine) : List (SecretModel S) :=
  applyPrecision jwtIsPublicCert precisionScore
    (sanitizeSecrets (lines.flatMap fun l => onLine c (l.output w)))

def place (w : Text) (s : SecretModel S) : SecretModel S :=
  { s with fileLocation := w ++ s.fileLocation }

section Place

variable {c : PatternCache} {w : Text}

theorem truncateLine_append (hv : ∀ x ∈ v, x.utf8Size = 1) (hroom : v.length ≤ room) (z : Text) :
    truncateLine room (v ++ z) = v ++ truncateLine (room - v.length) z := by
  induction v generalizing room with
  | nil => rfl
  | cons x xs ih =>
    simp only [length_cons] at hroom
    have hx : x.utf8Size = 1 := hv x (by simp)
    have hle : x.utf8Size ≤ room := by omega
    rw [cons_append, truncateLine, if_pos hle, hx, ih (fun y hy => hv y (by simp [hy]))
      (by omega), Nat.sub_sub, Nat.add_comm 1]
    rfl

def readBelow (room : Nat) (z : Text) : Option (Text × Int × Text) := do
  let (fileLocation, rest) ← cut ':' (trimRight (truncateLine room z))
  let (number, content) ← cut ':' rest
  let lineNo ← atoi number
  return (fileLocation, lineNo, trimSpace content)

theorem readLine_append {v : Text} (hne : v ≠ []) (hsize : ∀ x ∈ v, x.utf8Size = 1)
    (hroom : v.length ≤ maxLineBytes) (hspace : ∀ x ∈ v, isSpace x = false)
    (hcolon : ':' ∉ v) (z : Text) :
    readLine (v ++ z) =
      (readBelow (maxLineBytes - v.length) z).map fun r => (v ++ r.1, r.2.1, r.2.2) := by
  rw [readLine, truncateLine_append hsize hroom, trimSpace_append hne hspace,
    cut_append hcolon, readBelow]
  cases cut ':' (trimRight (truncateLine (maxLineBytes - v.length) z)) with
  | none => rfl
  | some p =>
    simp only [map_some, bind_eq_bind, bind_some]
    cases cut ':' p.2 with
    | none => rfl
    | some q =>
      simp only [bind_some]
      cases atoi q.1 with
      | none => rfl
      | some n => rfl

theorem findingsForLine_place (loc : Text) (n : Int) (content : Text) :
    (findingsForLine c (w ++ loc) n content : List (SecretModel S)) =
      (findingsForLine c loc n content).map (place w) := by
  rw [findingsForLine, findingsForLine]
  split
  · rfl
  · rw [List.map_map]
    rfl

theorem sanitizeFrom_place (seen : List (String × Text)) (l : List (SecretModel S)) :
    sanitizeFrom seen (l.map (place w)) = (sanitizeFrom seen l).map (place w) := by
  induction l generalizing seen with
  | nil => rfl
  | cons s ss ih =>
    have hkey : (place w s).key = s.key := rfl
    simp only [map_cons, sanitizeFrom, hkey, ih]
    split <;> rfl

variable {jwtIsPublicCert : Text → Bool} {precisionScore : Text → S}

theorem applyPrecision_place (l : List (SecretModel S)) :
    applyPrecision jwtIsPublicCert precisionScore (l.map (place w)) =
      (applyPrecision jwtIsPublicCert precisionScore l).map (place w) := by
  rw [applyPrecision, applyPrecision, filterMap_map, map_filterMap]
  refine filterMap_congr fun s _ => ?_
  have hclass : classifyPrecision jwtIsPublicCert precisionScore (place w s) =
      classifyPrecision jwtIsPublicCert precisionScore s := rfl
  simp only [Function.comp_apply, hclass]
  cases classifyPrecision jwtIsPublicCert precisionScore s <;> rfl

end Place

section Jobs

variable {c : PatternCache} {jwtIsPublicCert : Text → Bool} {precisionScore : Text → S}
  {lines : List TreeLine}

def root (u : Uuid) : Text := jobsDir ++ '/' :: (u.text ++ ['/'])

theorem root_length (u : Uuid) : (root u).length = 52 := by
  have hjobs : jobsDir.length = 14 := by decide
  simp [root, hjobs, u.length_eq]

theorem root_chars (u : Uuid) : ∀ x ∈ root u,
    x.utf8Size = 1 ∧ isSpace x = false ∧ x ≠ ':' := by
  have hjobs : ∀ x ∈ jobsDir, x.utf8Size = 1 ∧ isSpace x = false ∧ x ≠ ':' :=
    forall_of_all (by decide)
  have hhex : ∀ x ∈ "0123456789abcdef-".toList,
      x.utf8Size = 1 ∧ isSpace x = false ∧ x ≠ ':' := forall_of_all (by decide)
  intro x hx
  simp only [root, mem_append, mem_cons, not_mem_nil, or_false] at hx
  rcases hx with hx | rfl | hx | rfl
  · exact hjobs x hx
  · decide
  · exact hhex x (u.hex x hx)
  · decide

def belowFindings (c : PatternCache) (l : TreeLine) : List (SecretModel S) :=
  match readBelow (maxLineBytes - 52) (rgLine l.path l.number l.line) with
  | none => []
  | some (loc, n, content) => findingsForLine c loc n content

theorem onLine_output (fresh u : Uuid) (l : TreeLine) :
    (onLine c (l.output (workspace fresh u.text)) : List (SecretModel S)) =
      (belowFindings c l).map (place (root u)) := by
  have hout : l.output (workspace fresh u.text) = root u ++ rgLine l.path l.number l.line := by
    simp [TreeLine.output, workspace_eq, root, rgLine]
  have hne : root u ≠ [] := fun h => by simpa [h] using root_length u
  have hread := readLine_append hne (fun x hx => (root_chars u x hx).1)
    (by rw [root_length]; decide) (fun x hx => (root_chars u x hx).2.1)
    (fun h => (root_chars u _ h).2.2 rfl) (rgLine l.path l.number l.line)
  rw [root_length] at hread
  rw [onLine, hout, hread, belowFindings]
  cases readBelow (maxLineBytes - 52) (rgLine l.path l.number l.line) with
  | none => rfl
  | some r => exact findingsForLine_place r.1 r.2.1 r.2.2

def treeSecrets (jwtIsPublicCert : Text → Bool) (precisionScore : Text → S) (c : PatternCache)
    (lines : List TreeLine) : List (SecretModel S) :=
  applyPrecision jwtIsPublicCert precisionScore (sanitizeSecrets (lines.flatMap (belowFindings c)))

theorem scanSecrets_eq (fresh u : Uuid) :
    scanSecrets jwtIsPublicCert precisionScore c (workspace fresh u.text) lines =
      (treeSecrets jwtIsPublicCert precisionScore c lines).map (place (root u)) := by
  have hflat : (lines.flatMap fun l => onLine c (l.output (workspace fresh u.text))) =
      (lines.flatMap (belowFindings c)).map (place (S := S) (root u)) := by
    simp only [onLine_output, map_flatMap]
  rw [scanSecrets, hflat, sanitizeSecrets, sanitizeFrom_place, applyPrecision_place]
  rfl

/-- Nothing is left of a list of findings exactly when each of them is dropped: the verdict
depends on what makes two findings duplicates only. -/
theorem applyPrecision_sanitize_eq_nil :
    applyPrecision jwtIsPublicCert precisionScore (sanitizeSecrets l) = [] ↔
      ∀ t ∈ l, classifyPrecision jwtIsPublicCert precisionScore t = .drop := by
  rw [applyPrecision, filterMap_eq_nil_iff]
  simp only [Verdict.apply_eq_none]
  constructor
  · intro h t ht
    obtain ⟨l₁, s, l₂, hl, hkey, hl₁⟩ := exists_first_key ht
    rw [← classify_congr hkey]
    exact h s (mem_sanitizeSecrets.mpr ⟨l₁, l₂, hl, fun s' hs' he => hl₁ s' hs' (he.trans hkey)⟩)
  · intro h s hs
    obtain ⟨l₁, l₂, rfl, -⟩ := mem_sanitizeSecrets.mp hs
    exact h s (by simp)

end Jobs

section Keys

variable {u₁ u₂ : Uuid} {R : List (SecretModel S)}

theorem append_lt_append (hlen : x.length = y.length) (h : x < y) (z : Text) : x ++ z < y ++ z := by
  induction x generalizing y with
  | nil =>
    cases y with
    | nil => exact absurd h (lt_irrefl _)
    | cons b ys => simp at hlen
  | cons a xs ih =>
    cases y with
    | nil => simp at hlen
    | cons b ys =>
      rw [cons_append, cons_append, cons_lt_cons_iff]
      rcases cons_lt_cons_iff.mp h with hab | ⟨rfl, hlt⟩
      · exact .inl hab
      · exact .inr ⟨rfl, ih (by simpa using hlen) hlt⟩

theorem root_ne (hne : u₁.text ≠ u₂.text) : root u₁ ≠ root u₂ := by
  simpa [root] using hne

theorem getSecretKey_lt (h : root u₁ < root u₂) (s : SecretModel S) :
    getSecretKey (place (root u₁) s) < getSecretKey (place (root u₂) s) := by
  have hlen : (root u₁).length = (root u₂).length := by rw [root_length, root_length]
  have hlt := append_lt_append hlen h (s.fileLocation ++ '|' :: lineText s.lineNo)
  have hkey : ∀ u, getSecretKey (place (root u) s) =
      (s.secretString ++ ['|']) ++ (root u ++ (s.fileLocation ++ '|' :: lineText s.lineNo)) := by
    intro u
    simp [getSecretKey, place]
  rw [hkey, hkey]
  exact append_left_lt hlt

theorem exists_max {α β : Type} [LinearOrder β] (f : α → β) {l : List α} (hl : l ≠ []) :
    ∃ m ∈ l, ∀ i ∈ l, f i ≤ f m := by
  obtain ⟨m, hm⟩ := ne_none_iff_exists'.mp (mt argmax_eq_none.mp hl : l.argmax f ≠ none)
  exact ⟨m, argmax_mem hm, fun i hi => le_of_mem_argmax hi hm⟩

/-- The largest key of the later workspace is not a key of the earlier one: it would be
smaller than the key of the same finding in the later workspace. -/
theorem exists_key_not_mem (hR : R ≠ []) (h : root u₁ < root u₂) :
    ∃ s ∈ R.map (place (root u₂)), getSecretKey s ∉ (R.map (place (root u₁))).map getSecretKey := by
  obtain ⟨m, hm, hmax⟩ := exists_max (fun s => getSecretKey (place (root u₂) s)) hR
  refine ⟨place (root u₂) m, List.mem_map_of_mem hm, fun hmem => ?_⟩
  rw [List.map_map] at hmem
  obtain ⟨i, hi, heq⟩ := List.mem_map.mp hmem
  have hlt : getSecretKey (place (root u₁) i) < getSecretKey (place (root u₂) i) :=
    getSecretKey_lt h i
  exact absurd (lt_of_lt_of_le hlt (hmax i hi)) (heq ▸ lt_irrefl _)

theorem added_ne_nil (hR : R ≠ []) (h : root u₁ < root u₂) :
    (compareScans (R.map (place (root u₁))) (R.map (place (root u₂)))).added ≠ [] := by
  obtain ⟨s, hs, hkey⟩ := exists_key_not_mem hR h
  exact fun hnil => filter_eq_nil_iff.mp hnil s hs (by simpa using hkey)

theorem removed_ne_nil (hR : R ≠ []) (h : root u₂ < root u₁) :
    (compareScans (R.map (place (root u₁))) (R.map (place (root u₂)))).removed ≠ [] := by
  obtain ⟨s, hs, hkey⟩ := exists_key_not_mem hR h
  exact fun hnil => filter_eq_nil_iff.mp hnil s hs (by simpa using hkey)

end Keys

section Comparison

variable {c : PatternCache} {jwtIsPublicCert : Text → Bool} {precisionScore : Text → S}
  {lines : List TreeLine}

/-- The file locations contain the workspace, so two jobs share a finding only by accident, and
the comparison is empty exactly when the artifact has no finding at all. -/
theorem comparison_empty_iff (fresh : Uuid) {u₁ u₂ : Uuid} (hne : u₁.text ≠ u₂.text) :
    let secrets₁ := scanSecrets jwtIsPublicCert precisionScore c (workspace fresh u₁.text) lines
    let secrets₂ := scanSecrets jwtIsPublicCert precisionScore c (workspace fresh u₂.text) lines
    ((compareScans secrets₁ secrets₂).added = [] ∧ (compareScans secrets₁ secrets₂).removed = [] ∧
      (compareScans secrets₁ secrets₂).unchanged = secrets₁) ↔
    ∀ l ∈ lines, ∀ t ∈ (onLine c (l.output (workspace fresh u₁.text)) : List (SecretModel S)),
      classifyPrecision jwtIsPublicCert precisionScore t = .drop := by
  intro secrets₁ secrets₂
  have hdrop : secrets₁ = [] ↔ ∀ l ∈ lines,
      ∀ t ∈ (onLine c (l.output (workspace fresh u₁.text)) : List (SecretModel S)),
      classifyPrecision jwtIsPublicCert precisionScore t = .drop := by
    refine applyPrecision_sanitize_eq_nil.trans ?_
    simp only [mem_flatMap, forall_exists_index, and_imp]
    exact ⟨fun h l hl t ht => h t l hl ht, fun h t l hl ht => h l hl t ht⟩
  have h₁ : secrets₁ = (treeSecrets jwtIsPublicCert precisionScore c lines).map (place (root u₁)) :=
    scanSecrets_eq fresh u₁
  have h₂ : secrets₂ = (treeSecrets jwtIsPublicCert precisionScore c lines).map (place (root u₂)) :=
    scanSecrets_eq fresh u₂
  rw [← hdrop]
  constructor
  · rintro ⟨hadded, hremoved, -⟩
    by_contra hnil
    have hR : treeSecrets jwtIsPublicCert precisionScore c lines ≠ [] := fun h => hnil (by simp [h₁, h])
    rw [h₁, h₂] at hadded hremoved
    rcases lt_or_gt_of_ne (root_ne hne) with hlt | hlt
    · exact added_ne_nil hR hlt hadded
    · exact removed_ne_nil hR hlt hremoved
  · intro hnil
    have hR : treeSecrets jwtIsPublicCert precisionScore c lines = [] := by
      simpa using h₁.symm.trans hnil
    have hnil₂ : secrets₂ = [] := by simp [h₂, hR]
    simp [compareScans, hnil, hnil₂]

def uuid (x : Char) (h : x ∈ "0123456789abcdef-".toList) : Uuid :=
  ⟨List.replicate 36 x, by simp, fun y hy => (List.mem_replicate.mp hy).2 ▸ h⟩

def uuidA : Uuid := uuid 'a' (by decide)

def uuidB : Uuid := uuid 'b' (by decide)

def headerLine : TreeLine := ⟨"res/a.xml".toList, 1, keyHeader⟩

def keyLine : TreeLine := ⟨"res/a.xml".toList, 1, singleLine⟩

theorem belowFindings_of_spans {span content : Text}
    (hread : readBelow (maxLineBytes - 52) (rgLine l.path l.number l.line) =
      some (loc, n, content)) (hspans : spans c content = [(i, span)]) :
    (belowFindings c l : List (SecretModel S)) = [finding c loc n i span] := by
  simp [belowFindings, hread, findingsForLine, hspans]

theorem header_comparison_empty :
    let secrets := fun u : Uuid => scanSecrets (fun _ => false) (fun _ => ()) keyCache
      (workspace uuidA u.text) [headerLine]
    (compareScans (secrets uuidA) (secrets uuidB)).added = [] ∧
      (compareScans (secrets uuidA) (secrets uuidB)).removed = [] ∧
      (compareScans (secrets uuidA) (secrets uuidB)).unchanged = secrets uuidA := by
  refine (comparison_empty_iff uuidA (by decide)).mpr fun l hl t ht => ?_
  obtain rfl := mem_singleton.mp hl
  have hread : readBelow (maxLineBytes - 52) (rgLine headerLine.path headerLine.number headerLine.line) =
      some ("res/a.xml".toList, 1, keyHeader) := by decide +kernel
  rw [onLine_output, belowFindings_of_spans hread header_spans, map_singleton,
    mem_singleton] at ht
  subst ht
  exact classify_eq_drop rfl header_not_survives

/-- The same artifact with one key in it: the two jobs have no finding in common. -/
theorem key_comparison_not_empty :
    let secrets := fun u : Uuid => scanSecrets (fun _ => false) (fun _ => ()) keyCache
      (workspace uuidA u.text) [keyLine]
    uuidA.text ≠ uuidB.text ∧ (compareScans (secrets uuidA) (secrets uuidB)).added ≠ [] := by
  refine ⟨by decide, ?_⟩
  have hread : readBelow (maxLineBytes - 52) (rgLine keyLine.path keyLine.number keyLine.line) =
      some ("res/a.xml".toList, 1, singleLine) := by decide +kernel
  have hR : treeSecrets (fun _ => false) (fun _ => ()) keyCache [keyLine] ≠ [] := by
    intro hnil
    have hdrop := applyPrecision_sanitize_eq_nil.mp hnil
    rw [flatMap_singleton, belowFindings_of_spans hread singleLine_spans] at hdrop
    have hd := hdrop _ (mem_singleton_self _)
    exact not_survives_of_drop rfl hd singleLine_survives
  have hlt : root uuidA < root uuidB := by decide +kernel
  simp only [scanSecrets_eq]
  exact added_ne_nil hR hlt

end Comparison

def SameSecret (s t : SecretModel S) : Prop :=
  s.secretString = t.secretString ∧ s.fileLocation = t.fileLocation ∧ s.lineNo = t.lineNo

instance (s t : SecretModel S) : Decidable (SameSecret s t) := inferInstanceAs (Decidable (_ ∧ _ ∧ _))

structure Exact (secrets₁ secrets₂ : List (SecretModel S)) : Prop where
  added : (compareScans secrets₁ secrets₂).added =
    secrets₂.filter fun t => ¬ ∃ s ∈ secrets₁, SameSecret s t
  removed : (compareScans secrets₁ secrets₂).removed =
    secrets₁.filter fun s => ¬ ∃ t ∈ secrets₂, SameSecret s t
  unchanged : (compareScans secrets₁ secrets₂).unchanged =
    secrets₁.filter fun s => ∃ t ∈ secrets₂, SameSecret s t
  parts : ((compareScans secrets₁ secrets₂).unchanged ++
    (compareScans secrets₁ secrets₂).removed).Perm secrets₁
  swap_added : (compareScans secrets₂ secrets₁).added = (compareScans secrets₁ secrets₂).removed
  swap_removed : (compareScans secrets₂ secrets₁).removed = (compareScans secrets₁ secrets₂).added

def Shifted (s t : SecretModel S) : Prop :=
  ∃ u, t.secretString = s.secretString ++ '|' :: u ∧ s.fileLocation = u ++ '|' :: t.fileLocation

def Confused (s t : SecretModel S) : Prop :=
  lineText s.lineNo = lineText t.lineNo ∧
    (Shifted s t ∨ Shifted t s ∨
      s.secretString = t.secretString ∧ s.fileLocation = t.fileLocation ∧ s.lineNo ≠ t.lineNo)

theorem bar_not_mem_lineText (n : Int) : '|' ∉ lineText n := by
  have hdigits : '|' ∉ Nat.toDigits 10 (roundFloat n.natAbs) := fun h => by
    have hdigit := Nat.isDigit_of_mem_toDigits (b := 10) (by decide) (by decide) h
    exact absurd hdigit (by decide)
  rw [lineText]
  split
  · exact fun h => (mem_cons.mp h).elim (by decide) hdigits
  · exact hdigits

theorem joined_eq_iff {a f f' : Text} : a ++ '|' :: f = a' ++ '|' :: f' ↔
    a = a' ∧ f = f' ∨ (∃ u, a' = a ++ '|' :: u ∧ f = u ++ '|' :: f') ∨
      ∃ u, a = a' ++ '|' :: u ∧ f' = u ++ '|' :: f := by
  rw [append_eq_append_iff]
  constructor
  · rintro (⟨w, rfl, h⟩ | ⟨w, rfl, h⟩)
    · cases w with
      | nil => exact .inl ⟨by simp, by simpa using h⟩
      | cons x u =>
        obtain ⟨rfl, hf⟩ := cons.inj h
        exact .inr (.inl ⟨u, rfl, hf⟩)
    · cases w with
      | nil => exact .inl ⟨by simp, by simpa using h.symm⟩
      | cons x u =>
        obtain ⟨rfl, hf⟩ := cons.inj h
        exact .inr (.inr ⟨u, rfl, hf⟩)
  · rintro (⟨rfl, rfl⟩ | ⟨u, rfl, rfl⟩ | ⟨u, rfl, rfl⟩)
    · exact .inl ⟨[], by simp⟩
    · exact .inl ⟨'|' :: u, by simp⟩
    · exact .inr ⟨'|' :: u, by simp⟩

theorem getSecretKey_eq_iff {t : SecretModel S} :
    getSecretKey s = getSecretKey t ↔ SameSecret s t ∨ Confused s t := by
  have hkey : ∀ s : SecretModel S, getSecretKey s =
      (s.secretString ++ '|' :: s.fileLocation) ++ '|' :: lineText s.lineNo := fun s => by
    simp [getSecretKey]
  have hsplit : getSecretKey s = getSecretKey t ↔
      lineText s.lineNo = lineText t.lineNo ∧
        s.secretString ++ '|' :: s.fileLocation = t.secretString ++ '|' :: t.fileLocation := by
    rw [hkey, hkey]
    constructor
    · intro h
      have hline := congrArg (afterLast '|') h
      rw [afterLast_append (bar_not_mem_lineText _),
        afterLast_append (bar_not_mem_lineText _)] at hline
      rw [hline] at h
      exact ⟨hline, append_cancel_right h⟩
    · rintro ⟨hline, htexts⟩
      rw [hline, htexts]
  rw [hsplit, joined_eq_iff]
  constructor
  · rintro ⟨hline, ⟨hs, hf⟩ | hshift | hshift⟩
    · by_cases hn : s.lineNo = t.lineNo
      · exact .inl ⟨hs, hf, hn⟩
      · exact .inr ⟨hline, .inr (.inr ⟨hs, hf, hn⟩)⟩
    · exact .inr ⟨hline, .inl hshift⟩
    · exact .inr ⟨hline, .inr (.inl hshift)⟩
  · rintro (⟨hs, hf, hn⟩ | ⟨hline, hshift | hshift | ⟨hs, hf, -⟩⟩)
    · exact ⟨congrArg lineText hn, .inl ⟨hs, hf⟩⟩
    · exact ⟨hline, .inr (.inl hshift)⟩
    · exact ⟨hline, .inr (.inr hshift)⟩
    · exact ⟨hline, .inl ⟨hs, hf⟩⟩

/-- The comparison is exact unless two secrets are confused, one of each job, and one of them
does not stand in the other job as well. -/
theorem comparison_exact_iff (secrets₁ secrets₂ : List (SecretModel S)) :
    Exact secrets₁ secrets₂ ↔ ∀ s ∈ secrets₁, ∀ t ∈ secrets₂, Confused s t →
      (∃ s' ∈ secrets₁, SameSecret s' t) ∧ ∃ t' ∈ secrets₂, SameSecret s t' := by
  constructor
  · intro h s hs t ht hconf
    have hkey : getSecretKey s = getSecretKey t := getSecretKey_eq_iff.mpr (.inr hconf)
    constructor
    · by_contra hnone
      have hmem : t ∈ (compareScans secrets₁ secrets₂).added := by
        rw [h.added]
        exact mem_filter.mpr ⟨ht, decide_eq_true hnone⟩
      have hnew := of_decide_eq_true (mem_filter.mp hmem).2
      exact hnew (hkey ▸ List.mem_map_of_mem hs)
    · have hmem : s ∈ (compareScans secrets₁ secrets₂).unchanged :=
        mem_filter.mpr ⟨hs, decide_eq_true (hkey ▸ List.mem_map_of_mem ht)⟩
      rw [h.unchanged] at hmem
      exact of_decide_eq_true (mem_filter.mp hmem).2
  · intro h
    have hfirst : ∀ s ∈ secrets₁, (getSecretKey s ∈ secrets₂.map getSecretKey ↔
        ∃ t ∈ secrets₂, SameSecret s t) := by
      intro s hs
      rw [List.mem_map]
      constructor
      · rintro ⟨t, ht, hkey⟩
        rcases getSecretKey_eq_iff.mp hkey.symm with hsame | hconf
        · exact ⟨t, ht, hsame⟩
        · exact (h s hs t ht hconf).2
      · rintro ⟨t, ht, hsame⟩
        exact ⟨t, ht, (getSecretKey_eq_iff.mpr (.inl hsame)).symm⟩
    have hsecond : ∀ t ∈ secrets₂, (getSecretKey t ∈ secrets₁.map getSecretKey ↔
        ∃ s ∈ secrets₁, SameSecret s t) := by
      intro t ht
      rw [List.mem_map]
      constructor
      · rintro ⟨s, hs, hkey⟩
        rcases getSecretKey_eq_iff.mp hkey with hsame | hconf
        · exact ⟨s, hs, hsame⟩
        · exact (h s hs t ht hconf).1
      · rintro ⟨s, hs, hsame⟩
        exact ⟨s, hs, getSecretKey_eq_iff.mpr (.inl hsame)⟩
    refine ⟨?_, ?_, ?_, ?_, rfl, rfl⟩
    · exact filter_congr fun t ht => decide_eq_decide.mpr (not_congr (hsecond t ht))
    · exact filter_congr fun s hs => decide_eq_decide.mpr (not_congr (hfirst s hs))
    · exact filter_congr fun s hs => decide_eq_decide.mpr (hfirst s hs)
    · simp only [compareScans, decide_not]
      exact filter_append_perm _ secrets₁

def secretAt (value path : String) : SecretModel Unit :=
  ⟨"key", 7, path.toList, "key", value.toList, "high", "", "", none⟩

def barSecret : SecretModel Unit := secretAt "a|b" "c"

def pathSecret : SecretModel Unit := secretAt "a" "b|c"

/-- A secret that is new is not reported, and one that is gone is reported as unchanged. -/
theorem bar_confuses : ¬ Exact [pathSecret] [barSecret] ∧
    (compareScans [pathSecret] [barSecret]).added.length = 0 ∧
    (compareScans [pathSecret] [barSecret]).unchanged.length = 1 := by
  refine ⟨fun h => ?_, by decide +kernel, by decide +kernel⟩
  have hnone : ¬ ∃ s ∈ [pathSecret], SameSecret s barSecret := by decide +kernel
  have hmem : barSecret ∈ (compareScans [pathSecret] [barSecret]).added := by
    rw [h.added]
    exact mem_filter.mpr ⟨mem_singleton_self _, decide_eq_true hnone⟩
  have hempty : (compareScans [pathSecret] [barSecret]).added = [] :=
    length_eq_zero_iff.mp (by decide +kernel)
  rw [hempty] at hmem
  cases hmem

end Morf.Scan
