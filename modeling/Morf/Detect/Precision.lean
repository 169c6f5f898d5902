import Morf.Detect.Findings
import Morf.Lib.Distinct

/-! `detect/precision.go`: the stage that drops or downgrades findings. -/

namespace Morf.Detect

open Morf.Lib Regex

/-- Case-insensitive literals: `s` and `k` also match U+017F and U+212A. -/
def foldChar (c : Char) : Regex :=
  .set false ((c.toLower, c.toLower) :: (c.toUpper, c.toUpper) ::
    (if c.toLower = 's' then [('\u017f', '\u017f')]
     else if c.toLower = 'k' then [('\u212a', '\u212a')] else []))

def foldLit (s : String) : Regex := s.toList.foldr (fun c r => .seq (foldChar c) r) .empty

def placeholderRE : Regex :=
  .seq (.anchor .wordBoundary) (.seq (.group (alts
    [foldLit "test", foldLit "example", foldLit "sample", foldLit "fake", foldLit "dummy",
     foldLit "placeholder", foldLit "xxxx", foldLit "changeme",
     .seq (foldLit "your") (.seq (opt (.set false [('_', '_'), ('-', '-')])) (foldLit "key"))]))
    (.anchor .wordBoundary))

def bcryptRE : Regex :=
  .seq (.anchor .textStart) (.seq (lit ['$', '2'])
    (.seq (.set false [('a', 'b'), ('x', 'y')]) (char '$')))

def benignDomainRE : Regex :=
  .group (alts [foldLit "sentry.io", foldLit "googleapis.com", foldLit "apple.com",
    foldLit "crashlytics"])

def validKeychainRE : Regex :=
  .seq (.anchor .textStart)
    (.seq (times (.set false [('A', 'Z'), ('0', '9')]) 10) (char '.'))

def pemMarkerRE : Regex :=
  .seq (lit "-----".toList)
    (.seq (.group (.alt (lit "BEGIN".toList) (lit "END".toList)))
      (.seq (.star true (.set true [('-', '-')])) (lit "-----".toList)))

def base64Set : Regex := .set false [('A', 'Z'), ('a', 'z'), ('0', '9'), ('+', '+'), ('/', '/')]

def pemBodyRE : Regex := .seq (times base64Set 40) (.star true base64Set)

def hasPEMBody (v : Text) : Bool := pemBodyRE.isMatch (pemMarkerRE.removeAll v)

def isAllAlpha (w : Text) : Bool := !w.isEmpty && w.all Char.isAlpha

def looksNaturalLanguage (v : Text) : Bool :=
  (Text.trimSpace v).any (fun c => c == ' ' || c == '\t') &&
    2 ≤ ((Text.fields v).filter fun w => 4 ≤ w.length && isAllAlpha w).length

def isPrivateKeyType (t : String) : Bool :=
  Text.contains "private key".toList (t.toList.map Text.toLower)

def isKeychainGroupType (t : String) : Bool :=
  "iOS Keychain Access Group".toList.isPrefixOf t.toList

def jwtType : String := "JSON Web Token (JWT)"

def isCredentialType (t : String) : Bool :=
  !(isPrivateKeyType t || t == jwtType || isKeychainGroupType t)

def publicTypes : List String :=
  ["Google Cloud Platform OAuth", "iOS Google Reversed Client ID Scheme", "Firebase Database URL"]

inductive Verdict (S : Type)
  | drop
  | info (score : S)
  | keep (score : S)

def logicalValue (v : Text) : Text := Text.trimSpace (Text.replace '\n' ' ' v)

/-- The decoding of a token's header and the floating-point score are parameters. -/
def classifyPrecision (jwtIsPublicCert : Text → Bool) (precisionScore : Text → S)
    (s : SecretModel S) : Verdict S :=
  let t := s.secretType
  let v := logicalValue s.secretString
  if placeholderRE.isMatch v then .drop
  else if bcryptRE.isMatch v then .drop
  else if isCredentialType t && looksNaturalLanguage v then .drop
  else if isPrivateKeyType t && !hasPEMBody v then .drop
  else if t = jwtType && jwtIsPublicCert v then .drop
  else if isKeychainGroupType t && (v == "keychain-access-groups".toList ||
      benignDomainRE.isMatch v || !validKeychainRE.isMatch v) then .drop
  else if t ∈ publicTypes then .info (precisionScore v)
  else if isKeychainGroupType t then .info (precisionScore v)
  else .keep (precisionScore v)

def Verdict.apply (s : SecretModel S) : Verdict S → Option (SecretModel S)
  | .drop => none
  | .info score => some { s with tier := "info", secretConfidence := "low", score := some score }
  | .keep score => some { s with tier := "keep", score := some score }

def applyPrecision (jwtIsPublicCert : Text → Bool) (precisionScore : Text → S)
    (secrets : List (SecretModel S)) : List (SecretModel S) :=
  secrets.filterMap fun s => (classifyPrecision jwtIsPublicCert precisionScore s).apply s

theorem Verdict.apply_eq_none {d : Verdict S} : d.apply s = none ↔ d = .drop := by
  cases d <;> simp [Verdict.apply]

theorem Verdict.apply_eq_some {d : Verdict S} (h : d.apply s = some s') :
    s'.fileLocation = s.fileLocation ∧ s'.lineNo = s.lineNo ∧ s'.key = s.key := by
  cases d with
  | drop => cases h
  | info score => cases h; exact ⟨rfl, rfl, rfl⟩
  | keep score => cases h; exact ⟨rfl, rfl, rfl⟩

theorem classify_congr (h : s.key = t.key) :
    classifyPrecision jwtIsPublicCert precisionScore s =
      classifyPrecision jwtIsPublicCert precisionScore t := by
  obtain ⟨ht, hv⟩ := Prod.mk.inj h
  simp only [classifyPrecision, ht, hv]

theorem hasPEMBody_length (h : hasPEMBody v) : 40 ≤ v.length := by
  obtain ⟨m, hm⟩ := Option.isSome_iff_exists.mp h
  obtain ⟨hat, -⟩ := findFrom_some hm
  obtain ⟨e, he, hf⟩ := List.mem_flatMap.mp (List.mem_of_head? hat)
  have hlen : e.2.length = 40 := times_set_length 40 _ _ e he
  have hpre : e.2.length ≤ _ := (Regex.run_prefix _ _ _ e he).length_le
  have hstrip := pemMarkerRE.removeAll_length v
  simp only [Cursor.skip_rest, Cursor.start, List.length_drop] at hpre
  omega

theorem logicalValue_length (v : Text) : (logicalValue v).length ≤ v.length := by
  simpa [logicalValue, Text.replace] using Text.length_trimSpace_le (Text.replace '\n' ' ' v)

/-! The stages after a scan, `SanitizeSecrets` and `ApplyPrecision`, one after the other and on
parts of a list. -/

theorem sanitizeFrom_eq (seen : List (String × Text)) (l : List (SecretModel S)) :
    sanitizeFrom seen l = Distinct.firstsFrom SecretModel.key seen l := by
  induction l generalizing seen with
  | nil => rfl
  | cons s ss ih =>
    by_cases hs : s.key ∈ seen
    · rw [sanitizeFrom, if_pos hs, Distinct.firstsFrom_cons_of_mem hs, ih]
    · rw [sanitizeFrom, if_neg hs, Distinct.firstsFrom_cons_of_not_mem hs, ih]

theorem sanitizeSecrets_eq (l : List (SecretModel S)) :
    sanitizeSecrets l = Distinct.firsts SecretModel.key l := sanitizeFrom_eq [] l

def precise (jwtIsPublicCert : Text → Bool) (precisionScore : Text → S) (s : SecretModel S) :
    Option (SecretModel S) :=
  (classifyPrecision jwtIsPublicCert precisionScore s).apply s

theorem applyPrecision_eq (l : List (SecretModel S)) :
    applyPrecision jwtIsPublicCert precisionScore l =
      l.filterMap (precise jwtIsPublicCert precisionScore) := rfl

theorem precise_key (h : precise jwtIsPublicCert precisionScore s = some s') : s'.key = s.key :=
  (Verdict.apply_eq_some h).2.2

theorem precise_isSome (h : s.key = t.key) :
    (precise jwtIsPublicCert precisionScore s).isSome =
      (precise jwtIsPublicCert precisionScore t).isSome := by
  rw [precise, precise, classify_congr h]
  cases classifyPrecision jwtIsPublicCert precisionScore t <;> rfl

theorem precise_precise (h : precise jwtIsPublicCert precisionScore s = some s') :
    precise jwtIsPublicCert precisionScore s' = some s' := by
  have hverdict : classifyPrecision jwtIsPublicCert precisionScore s' =
      classifyPrecision jwtIsPublicCert precisionScore s := classify_congr (precise_key h)
  rw [precise, hverdict]
  rw [precise] at h
  cases hv : classifyPrecision jwtIsPublicCert precisionScore s with
  | drop =>
    rw [hv] at h
    cases h
  | info score =>
    rw [hv] at h
    cases h
    rfl
  | keep score =>
    rw [hv] at h
    cases h
    rfl

/-- Removal of duplicates keeps the first finding of each type and value, once is enough, and it
may be done on parts of the list first; the precision stage looks at each finding for itself, once
is enough, and it may come before or after the removal of duplicates. -/
theorem stages_compose (jwtIsPublicCert : Text → Bool) (precisionScore : Text → S)
    (a b : List (SecretModel S)) :
    (sanitizeSecrets a = (a.mapIdx fun i s =>
      if ∀ t ∈ a.take i, t.key ≠ s.key then some s else none).reduceOption) ∧
    sanitizeSecrets (sanitizeSecrets a) = sanitizeSecrets a ∧
    sanitizeSecrets (a ++ b) = sanitizeSecrets (sanitizeSecrets a ++ sanitizeSecrets b) ∧
    sanitizeSecrets (applyPrecision jwtIsPublicCert precisionScore a) =
      applyPrecision jwtIsPublicCert precisionScore (sanitizeSecrets a) ∧
    applyPrecision jwtIsPublicCert precisionScore
        (applyPrecision jwtIsPublicCert precisionScore a) =
      applyPrecision jwtIsPublicCert precisionScore a ∧
    applyPrecision jwtIsPublicCert precisionScore a =
      a.flatMap fun s => applyPrecision jwtIsPublicCert precisionScore [s] := by
  simp only [sanitizeSecrets_eq, applyPrecision_eq]
  refine ⟨Distinct.firsts_eq a, Distinct.firsts_firsts a, (Distinct.firsts_append_firsts a b).symm,
    ?_, ?_, ?_⟩
  · exact Distinct.firstsFrom_filterMap precise_key precise_isSome (fun _ _ => Iff.rfl) a
  · rw [List.filterMap_filterMap]
    refine List.filterMap_congr fun s _ => ?_
    cases hs : precise jwtIsPublicCert precisionScore s with
    | none => rfl
    | some s' => exact precise_precise hs
  · induction a with
    | nil => rfl
    | cons s ss ih => rw [List.flatMap_cons, ← ih, ← List.filterMap_append, List.singleton_append]

end Morf.Detect
