import Mathlib.Data.List.Induction
import Morf.Lib.Utf8

/-! The comments of a Jira ticket: `parseJiraMessage` of `utils/database.go`. -/

namespace Morf.Utils.Jira

open Morf.Lib List

abbrev Bytes := List UInt8

def text (s : String) : Bytes := utf8 s.toList

def itoa (n : Int) : Bytes := text (toString n)

structure SecretModel where
  type : Bytes
  secretString : Bytes
  lineNo : Int
  fileLocation : Bytes

structure Secrets where
  fileName : Bytes
  versionName : Bytes
  packageName : Bytes
  apkHash : Bytes
  secretModel : List SecretModel

def header (secrets : Secrets) : Bytes :=
  text "h2. MORF - Mobile Reconnisance Framework\n" ++
  text "h4. APK Name: " ++ secrets.fileName ++ text "\n" ++
  text "h4. App Version: " ++ secrets.versionName ++ text "\n" ++
  text "h4. Package Name: " ++ secrets.packageName ++ text "\n" ++
  text "h4. SHA1: " ++ secrets.apkHash ++ text "\n" ++
  text "h4. Secrets in APK:\n" ++
  text "----------------\n" ++
  itoa secrets.secretModel.length ++ text " secrets found\n" ++
  text "----------------\n"

def noformat : Bytes := text "\x7bnoformat\x7d"

def secretEntry (value : SecretModel) : Bytes :=
  noformat ++
  (text "\n === " ++ value.type ++ text " ===\n") ++
  text "Secret Value: " ++ value.secretString ++ text "\n" ++
  text "Line No: " ++ itoa value.lineNo ++ text "\n" ++
  text "File Location: " ++ value.fileLocation ++ text "\n" ++
  noformat

def limit : Nat := 32767

/-- One round of the loop; the messages so far, and the current one. -/
def add (s : List Bytes × Bytes) (entry : Bytes) : List Bytes × Bytes :=
  if limit < s.2.length + entry.length then (s.1 ++ [s.2], entry) else (s.1, s.2 ++ entry)

def parseJiraMessage (secrets : Secrets) : List Bytes :=
  let s := (secrets.secretModel.map secretEntry).foldl add ([], header secrets)
  if s.2 ≠ noformat then s.1 ++ [s.2] else s.1

/-- The messages are the pieces in order, some at a time. -/
structure Packed (pieces : List Bytes) (messages : List Bytes) : Prop where
  whole : ∃ groups : List (List Bytes), groups.flatten = pieces ∧ messages = groups.map flatten ∧
    ∀ g ∈ groups, g ≠ []
  short : (∀ p ∈ pieces, p.length ≤ limit) → ∀ m ∈ messages, m.length ≤ limit

theorem Packed.add {pieces : List Bytes} {s : List Bytes × Bytes} (h : Packed pieces (s.1 ++ [s.2]))
    (entry : Bytes) :
    Packed (pieces ++ [entry]) ((Jira.add s entry).1 ++ [(Jira.add s entry).2]) := by
  obtain ⟨groups, rfl, hgroups, hne⟩ := h.whole
  have hshort : (∀ p ∈ groups.flatten ++ [entry], p.length ≤ limit) →
      entry.length ≤ limit ∧ ∀ m ∈ s.1 ++ [s.2], m.length ≤ limit := fun hp =>
    ⟨hp _ (by simp), h.short fun p hm => hp p (mem_append_left _ hm)⟩
  rw [Jira.add]
  split
  · refine ⟨⟨groups ++ [[entry]], by simp, by simp [hgroups], ?_⟩, fun hp m hm => ?_⟩
    · exact forall_mem_append.mpr ⟨hne, by simp⟩
    · rcases mem_append.mp hm with hm | hm
      · exact (hshort hp).2 m hm
      · rw [mem_singleton.mp hm]
        exact (hshort hp).1
  · rename_i hroom
    obtain ⟨front, last, rfl, hfront, hlast⟩ := append_eq_map_iff.mp hgroups
    obtain ⟨g, rfl, hg⟩ := map_eq_singleton_iff.mp hlast
    refine ⟨⟨front ++ [g ++ [entry]], by simp, by simp [hfront, hg], ?_⟩, fun hp m hm => ?_⟩
    · exact forall_mem_append.mpr ⟨(forall_mem_append.mp hne).1, by simp⟩
    · rcases mem_append.mp hm with hm | hm
      · exact (hshort hp).2 m (mem_append_left _ hm)
      · rw [mem_singleton.mp hm, length_append]
        exact Nat.le_of_not_lt hroom

theorem packed_foldl (first : Bytes) (entries : List Bytes) :
    Packed (first :: entries)
      ((entries.foldl Jira.add ([], first)).1 ++ [(entries.foldl Jira.add ([], first)).2]) := by
  induction entries using reverseRecOn with
  | nil => exact ⟨⟨[[first]], rfl, by simp, by simp⟩, by simp⟩
  | append_singleton entries entry ih =>
    rw [foldl_append]
    exact ih.add entry

theorem noformat_lt_header (secrets : Secrets) : noformat.length < (header secrets).length := by
  have hmorf : noformat.length < (text "h2. MORF - Mobile Reconnisance Framework\n").length := by
    decide +kernel
  simp only [header, length_append]
  omega

theorem noformat_lt_secretEntry (value : SecretModel) : noformat.length < (secretEntry value).length := by
  have hpos : 0 < noformat.length := by decide +kernel
  simp only [secretEntry, length_append]
  omega

theorem Packed.long {pieces messages : List Bytes} {n : Nat} (h : Packed pieces messages)
    (hp : ∀ p ∈ pieces, n < p.length) : ∀ m ∈ messages, n < m.length := by
  obtain ⟨groups, rfl, rfl, hne⟩ := h.whole
  intro m hm
  obtain ⟨g, hg, rfl⟩ := mem_map.mp hm
  obtain ⟨p, rest, rfl⟩ := exists_cons_of_ne_nil (hne g hg)
  have := hp p (mem_flatten.mpr ⟨_, hg, mem_cons_self⟩)
  simp only [flatten_cons, length_append]
  omega

theorem jira_messages_carry_all (secrets : Secrets) :
    (parseJiraMessage secrets).flatten =
        header secrets ++ (secrets.secretModel.map secretEntry).flatten ∧
      (∃ groups : List (List Bytes),
        groups.flatten = header secrets :: secrets.secretModel.map secretEntry ∧
          parseJiraMessage secrets = groups.map flatten) ∧
      (∀ m ∈ parseJiraMessage secrets, m ≠ []) ∧
      ((header secrets).length ≤ 32767 ∧
          (∀ value ∈ secrets.secretModel, (secretEntry value).length ≤ 32767) →
        ∀ m ∈ parseJiraMessage secrets, m.length ≤ 32767) := by
  have hpacked := packed_foldl (header secrets) (secrets.secretModel.map secretEntry)
  have hlong := hpacked.long (n := noformat.length) (forall_mem_cons.mpr
    ⟨noformat_lt_header secrets, forall_mem_map.mpr fun value _ => noformat_lt_secretEntry value⟩)
  have hlast : ((secrets.secretModel.map secretEntry).foldl Jira.add ([], header secrets)).2 ≠ noformat :=
    fun he => Nat.ne_of_gt (hlong _ (mem_append_right _ (mem_singleton_self _))) (congrArg length he)
  rw [parseJiraMessage, if_pos hlast]
  obtain ⟨groups, hflat, hgroups, -⟩ := hpacked.whole
  refine ⟨?_, ⟨groups, hflat, hgroups⟩, fun m hm he => ?_, fun h => hpacked.short ?_⟩
  · rw [hgroups, ← flatten_flatten, hflat, flatten_cons]
  · have := hlong m hm
    simp [he] at this
  · exact forall_mem_cons.mpr ⟨h.1, forall_mem_map.mpr h.2⟩

end Morf.Utils.Jira
