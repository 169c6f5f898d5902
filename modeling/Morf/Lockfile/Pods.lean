import Morf.Lockfile.Format

/-! `ParsePodfileLock` of `ios/lockfiles.go`. -/

namespace Morf.Lockfile

open Morf.Lib Morf.Lib.Assign Morf.Sbom
open Morf.Ios (trimSuffix)
open scoped List
open List

def isPodChar (c : Char) : Bool := c.isAlphanum || c ∈ ['_', '.', '/', '-']

def isBlankChar (c : Char) : Bool := c ∈ [' ', '\t', '\n', '\x0c', '\r']

/-- `parsePodEntry`, with `podEntryRe` read from left to right: no character of a part can start
the next one. -/
def parsePodEntry (rest : Text) : Option (Text × Text) :=
  let s := Text.trimSpace rest
  let name := s.takeWhile isPodChar
  let s := s.dropWhile isPodChar
  let gap := s.takeWhile isBlankChar
  match s.dropWhile isBlankChar with
  | '(' :: s =>
    let version := s.takeWhile (· ≠ ')')
    if name ≠ [] ∧ gap ≠ [] ∧ version ≠ [] ∧ s.dropWhile (· ≠ ')') = [')'] then some (name, version)
    else none
  | _ => none

def isIndented (line : Line) : Bool := line.head? = some ' ' ∨ line.head? = some '\t'

def opensPods (line : Line) : Bool := trimSuffix (Text.trimSpace line) ":" = ['P', 'O', 'D', 'S']

def podMark : Text := [' ', ' ', '-', ' ']

structure PodScan where
  inPods : Bool
  out : Versions

def podStep (s : PodScan) (line : Line) : PodScan :=
  if isIndented line = false then { s with inPods := opensPods line }
  else if s.inPods = false then s
  else if ¬ podMark <+: line then s
  else
    match parsePodEntry (trimSuffix (trimPrefix podMark line) ":") with
    | some p => { s with out := assign s.out p }
    | none => s

def parsePodfileLock (data : Text) : Versions :=
  ((scanLines data).foldl podStep ⟨false, fun _ => none⟩).out

structure IsPodName (name : Text) : Prop where
  ne_nil : name ≠ []
  chars : ∀ c ∈ name, isPodChar c = true

instance : DecidablePred IsPodName := fun name =>
  decidable_of_iff (name ≠ [] ∧ name.all isPodChar = true)
    ⟨fun h => ⟨h.1, List.all_eq_true.mp h.2⟩, fun h => ⟨h.ne_nil, List.all_eq_true.mpr h.chars⟩⟩

/-- A line of the section `PODS`: a pod, with a colon if dependencies follow, or else a dependency,
a comment or a blank line. -/
inductive PodLine
  | pod (name version : Text) (colon : Bool)
  | other (line : Line)

namespace PodLine

def text : PodLine → Line
  | .pod name version colon =>
    podMark ++ (name ++ ' ' :: '(' :: (version ++ [')'])) ++ if colon then [':'] else []
  | .other line => line

def Valid : PodLine → Prop
  | .pod name version _ => IsPodName name ∧ IsVersion version
  | .other line => ¬ podMark <+: line ∧ (isIndented line = true ∨ line = [] ∨ line.head? = some '#')

instance : DecidablePred Valid
  | .pod .. => inferInstanceAs (Decidable (_ ∧ _))
  | .other _ => inferInstanceAs (Decidable (_ ∧ _))

def entry : PodLine → Option (Text × Text)
  | .pod name version _ => some (name, version)
  | .other _ => none

def isLoose : PodLine → Bool
  | .pod .. => false
  | .other line => !isIndented line

end PodLine

open PodLine

structure PodfileLock where
  before : List Line
  pods : List PodLine
  after : List Line
  valid : ∀ l ∈ pods, l.Valid
  names : ((pods.filterMap entry).map Prod.fst).Nodup
  single : ∀ l ∈ before ++ after, isIndented l = false → opensPods l = false
  next : ∀ l ∈ after.head?, isIndented l = false
  lines : ∀ l ∈ before ++ pods.map text ++ after, IsLine l

namespace PodfileLock

def podsHeader : Line := ['P', 'O', 'D', 'S', ':']

def text (d : PodfileLock) : Text :=
  printLines (d.before ++ podsHeader :: (d.pods.map PodLine.text ++ d.after))

def versions (d : PodfileLock) : List (Text × Text) := d.pods.filterMap PodLine.entry

/-- No pod comes after a loose line of the section. -/
def Unbroken (d : PodfileLock) : Prop :=
  d.pods.Pairwise fun a b => ¬ (a.isLoose = true ∧ b.entry.isSome = true)

end PodfileLock

theorem isSpace_of_isPodChar (h : isPodChar c = true) : Text.isSpace c = false := by
  rcases Bool.or_eq_true_iff.mp h with h | h
  · exact isSpace_of_isAlphanum h
  · have hall : ∀ d ∈ ['_', '.', '/', '-'], Text.isSpace d = false := Text.forall_of_all (by decide)
    exact hall c (of_decide_eq_true h)

theorem parsePodEntry_pod (hname : IsPodName name) (hversion : IsVersion version) :
    parsePodEntry (name ++ ' ' :: '(' :: (version ++ [')'])) = some (name, version) := by
  have hclose : ∀ c ∈ version, decide (c ≠ ')') = true := fun c hc => by
    have := (hversion.plain c hc).1
    simp at this ⊢
    tauto
  have htrim : Text.trimSpace (name ++ ' ' :: '(' :: (version ++ [')'])) =
      name ++ ' ' :: '(' :: (version ++ [')']) := by
    rw [Text.trimSpace_append hname.ne_nil fun c hc => isSpace_of_isPodChar (hname.chars c hc)]
    exact congrArg (name ++ ·) (Text.trimRight_concat (by decide) (' ' :: '(' :: version))
  obtain ⟨hn, hrest⟩ := takeWhile_run hname.chars (c := ' ') (by decide) ('(' :: (version ++ [')']))
  obtain ⟨hv, hend⟩ := takeWhile_run hclose (c := ')') (by decide) []
  simp only [parsePodEntry, htrim, hn, hrest]
  have hgap : (' ' :: '(' :: (version ++ [')'])).takeWhile isBlankChar = [' '] := by
    rw [takeWhile_cons_of_pos (by decide), takeWhile_cons_of_neg (by decide)]
  have hopen : (' ' :: '(' :: (version ++ [')'])).dropWhile isBlankChar = '(' :: (version ++ [')']) := by
    rw [dropWhile_cons_of_pos (by decide), dropWhile_cons_of_neg (by decide)]
  rw [hgap, hopen]
  simp only [hv, hend]
  rw [if_pos ⟨hname.ne_nil, by simp, hversion.ne_nil, trivial⟩]

section Step

variable {line : Line}

theorem podStep_header (h : isIndented line = false) :
    podStep s line = { s with inPods := opensPods line } := if_pos h

theorem podStep_outside (h : opensPods line = false ∨ isIndented line = true) :
    podStep ⟨false, out⟩ line = ⟨false, out⟩ := by
  cases hline : isIndented line with
  | false =>
    rw [podStep_header hline, h.resolve_right (by simp [hline])]
  | true => rw [podStep, if_neg (by simp [hline]), if_pos rfl]

theorem foldl_outside {lines : List Line}
    (h : ∀ l ∈ lines, isIndented l = false → opensPods l = false) :
    lines.foldl podStep ⟨false, out⟩ = ⟨false, out⟩ := by
  induction lines with
  | nil => rfl
  | cons l ls ih =>
    have hl : opensPods l = false ∨ isIndented l = true := by
      cases hi : isIndented l with
      | false => exact .inl (h l mem_cons_self hi)
      | true => exact .inr rfl
    rw [foldl_cons, podStep_outside hl, ih fun l' hl' => h l' (mem_cons_of_mem l hl')]

theorem podStep_pod (h : (pod name version colon).Valid) :
    podStep ⟨true, out⟩ (pod name version colon).text =
      ⟨true, assign out (name, version)⟩ := by
  obtain ⟨hname, hversion⟩ := h
  have hmark : podMark <+: (pod name version colon).text :=
    (List.prefix_append _ _).trans (List.prefix_append _ _)
  have hentry : trimSuffix (trimPrefix podMark (pod name version colon).text) ":" =
      name ++ ' ' :: '(' :: (version ++ [')']) := by
    rw [text, append_assoc, trimPrefix_append]
    cases colon with
    | true => exact trimSuffix_append _ ":"
    | false =>
      have hconcat : name ++ ' ' :: '(' :: (version ++ [')']) =
          (name ++ ' ' :: '(' :: version) ++ [')'] := by simp
      rw [if_neg (by decide), append_nil, hconcat]
      exact trimSuffix_colon_concat (by decide) _
  have hindented : isIndented (pod name version colon).text = true := rfl
  rw [podStep, if_neg (by simp [hindented]), if_neg Bool.noConfusion, if_neg (not_not.mpr hmark),
    hentry, parsePodEntry_pod hname hversion]

theorem podStep_other (h : ¬ podMark <+: line) (hline : isIndented line = true) :
    podStep s line = s := by
  rw [podStep, if_neg (by simp [hline]), if_pos h, ite_self]

end Step

theorem not_opensPods {line : Line} (h : line = [] ∨ line.head? = some '#') :
    opensPods line = false := by
  rcases h with rfl | h
  · decide
  · obtain ⟨rest, rfl⟩ : ∃ rest, line = '#' :: rest := head?_eq_some_iff.mp h
    refine decide_eq_false fun hpods => ?_
    have hprefix := trimSuffix_isPrefix (Text.trimSpace ('#' :: rest)) ":"
    rw [hpods, Text.trimSpace_cons (by decide)] at hprefix
    exact absurd (cons_prefix_cons.mp hprefix).1 (by decide)

def kept (pods : List PodLine) : List (Text × Text) :=
  (pods.takeWhile fun l => !l.isLoose).filterMap entry

theorem kept_pod (name version : Text) (colon : Bool) (ls : List PodLine) :
    kept (.pod name version colon :: ls) = (name, version) :: kept ls := rfl

theorem kept_indented (h : isIndented line = true) (ls : List PodLine) :
    kept (.other line :: ls) = kept ls := by
  rw [kept, takeWhile_cons_of_pos (by simp [isLoose, h])]
  rfl

theorem kept_loose (h : isIndented line = false) (ls : List PodLine) :
    kept (.other line :: ls) = [] := by
  rw [kept, takeWhile_cons_of_neg (by simp [isLoose, h])]
  rfl

theorem kept_isPrefix (pods : List PodLine) : kept pods <+: pods.filterMap entry :=
  (List.takeWhile_prefix _).filterMap _

theorem kept_eq_iff : kept pods = pods.filterMap entry ↔
    pods.Pairwise fun a b => ¬ (a.isLoose = true ∧ b.entry.isSome = true) := by
  induction pods with
  | nil => exact ⟨fun _ => .nil, fun _ => rfl⟩
  | cons l ls ih =>
    rw [pairwise_cons, ← ih]
    cases l with
    | pod name version colon =>
      have hentry : (pod name version colon).entry = some (name, version) := rfl
      rw [kept_pod, filterMap_cons_some hentry]
      simp [isLoose]
    | other line =>
      rw [filterMap_cons_none rfl]
      cases hl : isIndented line with
      | true =>
        rw [kept_indented hl]
        simp [isLoose, hl]
      | false =>
        have hloose : (other line).isLoose = true := by simp [isLoose, hl]
        rw [kept_loose hl, eq_comm, filterMap_eq_nil_iff]
        constructor
        · intro hnone
          have hall : ls.filterMap entry = [] := filterMap_eq_nil_iff.mpr hnone
          refine ⟨fun b hb h => ?_, ?_⟩
          · simp [hnone b hb] at h
          · exact (prefix_nil.mp (hall ▸ kept_isPrefix ls)).trans hall.symm
        · rintro ⟨hnone, -⟩ b hb
          exact Option.not_isSome_iff_eq_none.mp fun h => hnone b hb ⟨hloose, h⟩

theorem not_opensPods_text {l : PodLine} (h : l.Valid) (hl : isIndented l.text = false) :
    opensPods l.text = false := by
  cases l with
  | pod name version colon => cases hl
  | other line =>
    change isIndented line = false at hl
    exact not_opensPods (h.2.resolve_left (by simp [hl]))

theorem foldl_pods (h : ∀ l ∈ pods, l.Valid) (out : Versions) :
    ((pods.map text).foldl podStep ⟨true, out⟩).out = (kept pods).foldl assign out := by
  induction pods generalizing out with
  | nil => rfl
  | cons l ls ih =>
    have hls : ∀ l ∈ ls, l.Valid := fun l' hl' => h l' (mem_cons_of_mem l hl')
    have hl := h l mem_cons_self
    rw [map_cons, foldl_cons]
    cases l with
    | pod name version colon => rw [podStep_pod hl, ih hls, kept_pod, foldl_cons]
    | other line =>
      cases hline : isIndented line with
      | true => rw [text, podStep_other hl.1 hline, ih hls, kept_indented hline]
      | false =>
        -- the section is closed for good
        have hclosed : opensPods line = false := not_opensPods_text hl hline
        rw [text, podStep_header hline, hclosed, kept_loose hline]
        refine congrArg PodScan.out (foldl_outside (forall_mem_map.mpr fun l' hl' => ?_))
        exact not_opensPods_text (hls l' hl')

theorem foldl_after {lines : List Line} (hnext : ∀ l ∈ lines.head?, isIndented l = false)
    (h : ∀ l ∈ lines, isIndented l = false → opensPods l = false) :
    (lines.foldl podStep s).out = s.out := by
  cases lines with
  | nil => rfl
  | cons l ls =>
    have hl := hnext l rfl
    rw [foldl_cons, podStep_header hl, h l mem_cons_self hl,
      foldl_outside fun l' hl' => h l' (mem_cons_of_mem l hl')]

theorem parsePodfileLock_text (d : PodfileLock) :
    parsePodfileLock d.text = assigned (kept d.pods) := by
  have hsingle := d.single
  have hlines : ∀ l ∈ d.before ++ PodfileLock.podsHeader :: (d.pods.map text ++ d.after),
      IsLine l := by
    intro l hl
    by_cases hheader : l = PodfileLock.podsHeader
    · subst hheader
      exact ⟨by decide, by decide, by decide⟩
    · refine d.lines l ?_
      simp only [mem_append, mem_cons] at hl ⊢
      tauto
  have hopen : podStep ⟨false, fun _ => none⟩ PodfileLock.podsHeader = ⟨true, fun _ => none⟩ := by
    rw [podStep_header rfl]
    exact congrArg (PodScan.mk · _) (by decide)
  rw [parsePodfileLock, PodfileLock.text, scanLines_printLines hlines, foldl_append,
    foldl_outside fun l hl => hsingle l (mem_append_left _ hl), foldl_cons, hopen,
    foldl_append, foldl_after d.next fun l hl => hsingle l (mem_append_right _ hl),
    foldl_pods d.valid]
  rfl

theorem podfileLock_yields_iff (d : PodfileLock) :
    Yields (parsePodfileLock d.text) d.versions ↔ d.Unbroken := by
  rw [PodfileLock.versions, yields_iff d.names, parsePodfileLock_text,
    assigned_prefix_iff d.names (kept_isPrefix d.pods), kept_eq_iff]
  rfl

end Morf.Lockfile
