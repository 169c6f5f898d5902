import Morf.Ios.MachO
import Morf.Lib.Utf8

/-! The corpus file that `WriteCorpus` of `ios/macho.go` writes, byte by byte, and what can be read
off its lines. -/

namespace Morf.Ios

open Morf.Lib
open List

/-- An `ArchStrings` whose names are any bytes, with the sections in the order of the iteration. -/
structure Slice where
  arch : Bytes
  isEncrypted : Bool
  strings : List (Bytes × List Bytes)

structure Record where
  arch : Bytes
  label : Bytes
  text : Bytes
  deriving DecidableEq

/-- `[arch=%s section=%s] %s` -/
def Record.line (r : Record) : Bytes :=
  ascii "[arch=" ++ (r.arch ++ ascii " section=" ++ (r.label ++ ascii "] " ++ r.text))

def Slice.records (sl : Slice) : List Record :=
  if sl.isEncrypted then [⟨sl.arch, ascii "__ENCRYPTED__", encryptedText⟩]
  else sl.strings.flatMap fun e => e.2.map (Record.mk sl.arch e.1)

def Slice.write (sl : Slice) : Bytes :=
  if sl.isEncrypted then (Record.mk sl.arch (ascii "__ENCRYPTED__") encryptedText).line ++ [10]
  else sl.strings.flatMap fun e => e.2.flatMap fun s =>
    (Record.mk sl.arch e.1 (if s.any isNewline then sanitizeLine s else s)).line ++ [10]

def corpusFile (slices : List Slice) : Bytes := slices.flatMap Slice.write

def readRecord (line : Bytes) : Option Record := do
  guard ((ascii "[arch=").isPrefixOf line)
  let (arch, rest) ← Text.cutAt (ascii " section=") (line.drop (ascii "[arch=").length)
  let (label, text) ← Text.cutAt (ascii "] ") rest
  return ⟨arch, label, text⟩

/-- The lines are those of the line-level writer, with names in UTF-8. -/
def ArchStrings.encoded (o : MapOrder) (sl : ArchStrings) : Slice :=
  ⟨utf8 sl.arch, sl.isEncrypted, (o.range sl.strings).map fun e => (utf8 e.1, e.2)⟩

theorem corpusFile_encoded (o : MapOrder) (bs : BinaryStrings) :
    corpusFile (bs.slices.map (ArchStrings.encoded o)) =
      (writeCorpus o bs).flatMap fun l => utf8 l.tag ++ 32 :: l.text ++ [10] := by
  have hmarker : ascii "__ENCRYPTED__" = utf8 "__ENCRYPTED__".toList := by decide +kernel
  have hjoin : ∀ {a b c : Text} {a' b' c' : Bytes}, utf8 a = a' → utf8 b = b' → utf8 c ++ [32] = c' →
      ∀ (arch label : Text) (text : Bytes), utf8 (a ++ arch ++ b ++ label ++ c) ++ 32 :: text =
        a' ++ (utf8 arch ++ b' ++ (utf8 label ++ c' ++ text)) := by
    rintro a b c _ _ _ rfl rfl rfl arch label text
    simp
  have hline : ∀ arch label text, utf8 (sectionTag arch label) ++ 32 :: text =
      (Record.mk (utf8 arch) (utf8 label) text).line :=
    hjoin (by decide +kernel) (by decide +kernel) (by decide +kernel)
  rw [corpusFile, writeCorpus, flatMap_assoc, flatMap_map]
  refine flatMap_congr fun sl _ => ?_
  rw [Slice.write, writeSlice, ArchStrings.encoded]
  cases sl.isEncrypted with
  | true => rw [if_pos rfl, if_pos rfl, flatMap_singleton, hline, hmarker]
  | false =>
    rw [if_neg Bool.false_ne_true, if_neg Bool.false_ne_true, flatMap_assoc, flatMap_map]
    refine flatMap_congr fun e _ => ?_
    rw [flatMap_map]
    exact flatMap_congr fun s _ => congrArg (· ++ [10]) (hline _ _ _).symm

/-- Names that do not run into the marks of a line. -/
structure Slice.Named (sl : Slice) : Prop where
  arch : 10 ∉ sl.arch ∧ 93 ∉ sl.arch
  labels : ∀ e ∈ sl.strings, 10 ∉ e.1 ∧ 93 ∉ e.1
  apart : ¬ ascii " section=" <:+: sl.arch

structure Record.Plain (r : Record) : Prop where
  arch : 10 ∉ r.arch
  apart : ¬ ascii " section=" <:+: r.arch
  label : 10 ∉ r.label ∧ 93 ∉ r.label
  text : ∀ b ∈ r.text, isNewline b = false

theorem Record.Plain.line {r : Record} (h : r.Plain) : 10 ∉ r.line := by
  have htext : 10 ∉ r.text := fun hmem => absurd (h.text 10 hmem) (by decide)
  have hmarks : (10 : UInt8) ∉ ascii "[arch=" ∧ (10 : UInt8) ∉ ascii " section=" ∧
      (10 : UInt8) ∉ ascii "] " := by decide +kernel
  simp only [Record.line, mem_append, not_or]
  exact ⟨hmarks.1, ⟨h.arch, hmarks.2.1⟩, ⟨h.label.1, hmarks.2.2⟩, htext⟩

theorem Record.Plain.read (h : r.Plain) : readRecord r.line = some r := by
  have harch : ascii " section=" = 32 :: ascii "section=" := by decide +kernel
  have hclose : ascii "] " = [93, 32] := by decide +kernel
  have hguard : (ascii "[arch=").isPrefixOf r.line = true :=
    List.isPrefixOf_iff_prefix.mpr ⟨_, rfl⟩
  have hfirst : ∀ w, Text.cutAt (ascii " section=") (r.arch ++ ascii " section=" ++ w) =
      some (r.arch, w) := by
    have := h.apart
    rw [harch] at this ⊢
    exact Text.cutAt_append (by decide +kernel) this
  have hsecond : ∀ w, Text.cutAt (ascii "] ") (r.label ++ ascii "] " ++ w) = some (r.label, w) := by
    rw [hclose]
    exact Text.cutAt_append (by decide) fun hin => h.label.2 (hin.subset mem_cons_self)
  rw [readRecord, hguard, Record.line, drop_left, hfirst]
  exact congrArg (Option.bind · _) (hsecond r.text)

theorem Slice.Named.plain {sl : Slice} (h : sl.Named)
    (hruns : ∀ e ∈ sl.strings, ∀ s ∈ e.2, ∃ data, s ∈ splitNulStrings data) :
    ∀ r ∈ sl.records, r.Plain := by
  intro r hr
  rw [Slice.records] at hr
  split at hr
  · obtain rfl := mem_singleton.mp hr
    have hlabel : 10 ∉ ascii "__ENCRYPTED__" ∧ 93 ∉ ascii "__ENCRYPTED__" := by decide +kernel
    have htext : ∀ b ∈ encryptedText, isNewline b = false := by decide +kernel
    exact ⟨h.arch.1, h.apart, hlabel, htext⟩
  · obtain ⟨e, he, hr⟩ := mem_flatMap.mp hr
    obtain ⟨s, hs, rfl⟩ := mem_map.mp hr
    refine ⟨h.arch.1, h.apart, h.labels e he, fun b hb => ?_⟩
    obtain ⟨data, hdata⟩ := hruns e he s hs
    obtain ⟨-, -, -, -, hprintable, -⟩ := mem_splitNulStrings.mp hdata
    exact isNewline_of_printable (hprintable b hb)

theorem Slice.write_eq {sl : Slice} (h : ∀ r ∈ sl.records, r.Plain) :
    sl.write = (sl.records.map Record.line).flatMap (· ++ [10]) := by
  rw [Slice.records] at h
  rw [Slice.write, Slice.records]
  split
  · simp
  · rename_i henc
    rw [if_neg henc] at h
    rw [map_flatMap, flatMap_assoc]
    refine flatMap_congr fun e he => ?_
    rw [map_map, flatMap_map]
    refine flatMap_congr fun s hs => ?_
    have hplain := h _ (mem_flatMap.mpr ⟨e, he, mem_map_of_mem hs⟩)
    rw [sanitize_guard, sanitizeLine_eq_self hplain.text]
    rfl

theorem readRecord_corpusFile (h : ∀ sl ∈ slices, ∀ r ∈ sl.records, r.Plain) :
    ((corpusFile slices).splitOn 10).map readRecord =
      (slices.flatMap Slice.records).map some ++ [none] := by
  have hall : ∀ r ∈ slices.flatMap Slice.records, r.Plain := fun r hr => by
    obtain ⟨sl, hsl, hr⟩ := mem_flatMap.mp hr
    exact h sl hsl r hr
  have hfile : corpusFile slices =
      ((slices.flatMap Slice.records).map Record.line).flatMap (· ++ [10]) := by
    rw [corpusFile, map_flatMap, flatMap_assoc]
    exact flatMap_congr fun sl hsl => Slice.write_eq (h sl hsl)
  have hlines : ∀ l ∈ (slices.flatMap Slice.records).map Record.line, 10 ∉ l := fun l hl => by
    obtain ⟨r, hr, rfl⟩ := mem_map.mp hl
    exact (hall r hr).line
  rw [hfile, splitOn_flatMap_concat hlines, map_append, map_map]
  exact congrArg (· ++ [none]) (map_congr_left fun r hr => (hall r hr).read)

/-- The strings of a buffer are its printable runs of sufficient length, in order, and what is
written of such strings is read back, line by line. -/
theorem printable_runs_recovered :
    (∀ data, splitNulStrings data =
        (data.splitOnP fun b => !isPrintableStringByte b).filter (stringMinLen ≤ ·.length) ∧
      ∀ run, run ∈ splitNulStrings data ↔ StringRun data run) ∧
    ∀ slices : List Slice, (∀ sl ∈ slices, sl.Named) →
      (∀ sl ∈ slices, ∀ e ∈ sl.strings, ∀ s ∈ e.2, ∃ data, s ∈ splitNulStrings data) →
      ((corpusFile slices).splitOn 10).map readRecord =
        (slices.flatMap Slice.records).map some ++ [none] := by
  refine ⟨fun data => ⟨?_, fun run => mem_splitNulStrings⟩, fun slices hnamed hruns => ?_⟩
  · have hid : ∀ l : List Bytes, l.modifyHead ([] ++ ·) = l := fun l => by cases l <;> rfl
    rw [splitNulStrings, Runs.collect_eq_splitOnP, hid]
  · exact readRecord_corpusFile fun sl hsl => (hnamed sl hsl).plain (hruns sl hsl)

/-- One image with one string. -/
def slicesOf (arch label text : String) : List Slice :=
  [⟨ascii arch, false, [(ascii label, [ascii text])]⟩]

theorem arm64_line_recovered :
    ((corpusFile (slicesOf "AARCH64" "__TEXT.__cstring" "sk_live")).splitOn 10).map readRecord =
      [some ⟨ascii "AARCH64", ascii "__TEXT.__cstring", ascii "sk_live"⟩, none] := by
  have hrun : ascii "sk_live" ∈ splitNulStrings (ascii "sk_live") := by decide +kernel
  refine printable_runs_recovered.2 (slicesOf "AARCH64" "__TEXT.__cstring" "sk_live") ?_ ?_
  · intro sl hsl
    obtain rfl := mem_singleton.mp hsl
    exact ⟨by decide +kernel, by decide +kernel, by decide +kernel⟩
  · intro sl hsl e he s hs
    obtain rfl := mem_singleton.mp hsl
    obtain rfl := mem_singleton.mp he
    obtain rfl := mem_singleton.mp hs
    exact ⟨_, hrun⟩

/-- Without a condition on architectures, two records can share a line. -/
theorem section_in_architecture_lost :
    corpusFile (slicesOf "a section=b" "c" "text") = corpusFile (slicesOf "a" "b section=c" "text") ∧
      ascii "text" ∈ splitNulStrings (ascii "text") ∧
      ∀ name ∈ ["a section=b", "c", "a", "b section=c"], 10 ∉ ascii name ∧ 93 ∉ ascii name := by
  decide +kernel

end Morf.Ios
