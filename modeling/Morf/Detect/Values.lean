import Morf.Detect.Findings

/-! The value of a finding and its place in the report: which spans of one pattern stay apart
when duplicates are removed. -/

namespace Morf.Detect

open Morf.Lib

structure Bare (span : Text) : Prop where
  quote : '"' ∉ span
  opening : '<' ∉ span
  closing : '>' ∉ span
  space : ∀ x ∈ span, Text.isSpace x = false

instance (span : Text) : Decidable (Bare span) :=
  decidable_of_iff
    ('"' ∉ span ∧ '<' ∉ span ∧ '>' ∉ span ∧ (span.all fun x => Text.isSpace x = false) = true)
    ⟨fun h => ⟨h.1, h.2.1, h.2.2.1, Text.forall_of_all h.2.2.2⟩,
      fun h => ⟨h.quote, h.opening, h.closing, by simpa using h.space⟩⟩

theorem extractSecret_bare (h : Bare span) : extractSecret span = Text.afterLast ':' span := by
  have hquote : span.count '"' = 0 := List.count_eq_zero_of_not_mem h.quote
  simp only [extractSecret, h.opening, h.closing, hquote, false_and, if_false]
  by_cases hcolon : ':' ∈ span
  · have hspace : ∀ x ∈ Text.afterLast ':' span, Text.isSpace x = false :=
      fun x hx => h.space x (Text.afterLast_subset hx)
    simp [hcolon, Text.trimSpace_eq_self hspace]
  · simp [hcolon, Text.afterLast_of_not_mem hcolon]

theorem secretValue_bare (h : Bare span) :
    secretValue span =
      if Text.afterLast ':' span = [] then span else Text.afterLast ':' span := by
  have hspace : ∀ x ∈ Text.afterLast ':' span, Text.isSpace x = false :=
    fun x hx => h.space x (Text.afterLast_subset hx)
  rw [secretValue, extractSecret_bare h, Text.trimSpace_eq_self hspace]

theorem secretValue_eq_iff (hx : Bare x) (hy : Bare y) (hne : x ≠ y) :
    secretValue x = secretValue y ↔
      Text.afterLast ':' x = Text.afterLast ':' y ∧ Text.afterLast ':' x ≠ [] := by
  rw [secretValue_bare hx, secretValue_bare hy]
  by_cases hx₀ : Text.afterLast ':' x = [] <;> by_cases hy₀ : Text.afterLast ':' y = []
  · simp [hx₀, hy₀, hne]
  · simp only [hx₀, hy₀, if_true, if_false]
    refine ⟨fun h => absurd hx₀ ?_, fun h => absurd rfl h.2⟩
    rwa [h, Text.afterLast_afterLast]
  · simp only [hx₀, hy₀, if_true, if_false]
    refine ⟨fun h => absurd hy₀ ?_, fun h => absurd h.1 id⟩
    rwa [← h, Text.afterLast_afterLast]
  · simp [hx₀, hy₀]

def StayApart (l : List (SecretModel S)) (f g : SecretModel S) : Prop :=
  f.secretString ≠ g.secretString ∧ ∃ s ∈ sanitizeSecrets l, ∃ t ∈ sanitizeSecrets l,
    s.key = f.key ∧ t.key = g.key ∧ s ≠ t

theorem exists_sanitized {l : List (SecretModel S)} (hf : f ∈ l) :
    ∃ s ∈ sanitizeSecrets l, s.key = f.key := by
  obtain ⟨l₁, s, l₂, hl, hkey, hl₁⟩ := exists_first_key hf
  exact ⟨s, mem_sanitizeSecrets.mpr ⟨l₁, l₂, hl, fun t ht => hkey ▸ hl₁ t ht⟩, hkey⟩

theorem stayApart_iff (hf : f ∈ l) (hg : g ∈ l) :
    StayApart l f g ↔ f.secretString ≠ g.secretString := by
  refine ⟨And.left, fun hne => ⟨hne, ?_⟩⟩
  obtain ⟨s, hs, hsf⟩ := exists_sanitized hf
  obtain ⟨t, ht, htg⟩ := exists_sanitized hg
  refine ⟨s, hs, t, ht, hsf, htg, ?_⟩
  rintro rfl
  exact hne (congrArg Prod.snd (hsf.symm.trans htg))

theorem mem_findingsForLine {content : Text} (h : (o, span) ∈ spans c content) (fileLocation : Text)
    (lineNo : Int) :
    (finding c fileLocation lineNo o span : SecretModel S) ∈
      findingsForLine c fileLocation lineNo content := by
  rw [findingsForLine]
  split
  · rename_i hnil
    simp [hnil] at h
  · exact List.mem_map.mpr ⟨(o, span), h, rfl⟩

/-- Two different bare spans of one pattern, wherever they were found. -/
theorem bare_spans_apart_iff {c : PatternCache} {i : Nat} {x y content₁ content₂ : Text}
    (hx : (some i, x) ∈ spans c content₁) (hy : (some i, y) ∈ spans c content₂) (hne : x ≠ y)
    (hbx : Bare x) (hby : Bare y) (file₁ file₂ : Text) (line₁ line₂ : Int)
    {l : List (SecretModel S)} (hl₁ : findingsForLine c file₁ line₁ content₁ ⊆ l)
    (hl₂ : findingsForLine c file₂ line₂ content₂ ⊆ l) :
    StayApart l (finding c file₁ line₁ (some i) x) (finding c file₂ line₂ (some i) y) ↔
      Text.afterLast ':' x ≠ Text.afterLast ':' y ∨ Text.afterLast ':' x = [] := by
  rw [stayApart_iff (hl₁ (mem_findingsForLine hx file₁ line₁))
    (hl₂ (mem_findingsForLine hy file₂ line₂))]
  change ¬ secretValue x = secretValue y ↔ _
  rw [secretValue_eq_iff hbx hby hne, Decidable.not_and_iff_not_or_not, ne_eq, Decidable.not_not]

/-- The shipped expression for PostgreSQL URLs,
`postgres(ql)?://[^:@\s]{3,40}:[^@\s]{6,64}@[a-zA-Z0-9.\-]+:[0-9]{2,5}`. -/
def postgresRE : Regex :=
  let space := [('\t', '\n'), ('\x0c', '\r'), (' ', ' ')]
  let user := .set true ((':', ':') :: ('@', '@') :: space)
  let password := .set true (('@', '@') :: space)
  let host := .set false [('a', 'z'), ('A', 'Z'), ('0', '9'), ('.', '.'), ('-', '-')]
  let digit := .set false [('0', '9')]
  .seq (Regex.lit "postgres".toList) (.seq (Regex.opt (.group (Regex.lit "ql".toList)))
    (.seq (Regex.lit "://".toList) (.seq (Regex.times user 3) (.seq (Regex.atMost user 37)
    (.seq (Regex.char ':') (.seq (Regex.times password 6) (.seq (Regex.atMost password 58)
    (.seq (Regex.char '@') (.seq host (.seq (.star true host)
    (.seq (Regex.char ':') (.seq (Regex.times digit 2) (Regex.atMost digit 3)))))))))))))

def urlCache : PatternCache :=
  let patterns : List PatternInfo :=
    [⟨"PostgreSQL URI",
      "postgres(ql)?://[^:@\\s]\x7b3,40\x7d:[^@\\s]\x7b6,64\x7d@[a-zA-Z0-9.\\-]+:[0-9]\x7b2,5\x7d",
      "high", "any", "MASVS-STORAGE-2", some postgresRE⟩]
  { patterns, combined := buildCombinedRegex true patterns }

def urlA : Text := "postgres://app:hunter22@db:5432".toList

def urlB : Text := "postgres://root:letmein9@db:5432".toList

def urlC : Text := "postgres://root:letmein9@db:5433".toList

def urlFindings (url₁ url₂ : Text) : List (SecretModel Unit) :=
  findingsForLine urlCache "a.txt".toList 1 url₁ ++ findingsForLine urlCache "a.txt".toList 2 url₂

theorem urls_evaluated :
    (spans urlCache urlA = [(some 0, urlA)] ∧ spans urlCache urlB = [(some 0, urlB)] ∧
      spans urlCache urlC = [(some 0, urlC)]) ∧ (Bare urlA ∧ Bare urlB ∧ Bare urlC) ∧
      urlA ≠ urlB ∧ urlA ≠ urlC ∧ Text.afterLast ':' urlA = "5432".toList ∧
      Text.afterLast ':' urlB = "5432".toList ∧ Text.afterLast ':' urlC = "5433".toList := by
  decide +kernel

theorem different_ports_apart :
    StayApart (urlFindings urlA urlC) (finding urlCache "a.txt".toList 1 (some 0) urlA)
      (finding urlCache "a.txt".toList 2 (some 0) urlC) := by
  obtain ⟨⟨hspanA, -, hspanC⟩, ⟨hbareA, -, hbareC⟩, -, hne, hportA, -, hportC⟩ := urls_evaluated
  refine (bare_spans_apart_iff (by simp [hspanA]) (by simp [hspanC]) hne hbareA hbareC _ _ 1 2
    (List.subset_append_left _ _) (List.subset_append_right _ _)).mpr (.inl ?_)
  rw [hportA, hportC]
  decide

/-- The credentials of one of the two URLs are not reported. -/
theorem equal_ports_merged :
    spans urlCache urlA = [(some 0, urlA)] ∧ spans urlCache urlB = [(some 0, urlB)] ∧
      Bare urlA ∧ Bare urlB ∧ urlA ≠ urlB ∧
      (sanitizeSecrets (urlFindings urlA urlB)).map SecretModel.secretString = ["5432".toList] := by
  obtain ⟨⟨hspanA, hspanB, -⟩, ⟨hbareA, hbareB, -⟩, hne, -⟩ := urls_evaluated
  exact ⟨hspanA, hspanB, hbareA, hbareB, hne, by decide +kernel⟩

end Morf.Detect
