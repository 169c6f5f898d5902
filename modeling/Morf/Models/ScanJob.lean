import Morf.Lib.Fields
import Morf.Lib.Rfc3339
import Morf.Lib.Utf8

/-! The texts of a job's Redis hash: `ToMap` and `FromMap` of `models/ScanJob.go` with what
`go-redis` writes and reads. -/

namespace Morf.Models

open Morf.Lib Morf.Lib.Json
open List Function Option

abbrev Bytes := List UInt8

/-- A `map[string]string` whose texts are valid: its members in the order of their keys. -/
@[ext] structure TraceContext where
  members : Members
  sorted : Sorted members
  texts : ∀ m ∈ members, (asString m.2).isSome

namespace TraceContext

def empty : TraceContext := ⟨[], .nil, fun _ h => absurd h List.not_mem_nil⟩

def toText (c : TraceContext) : List Char := marshal (.object c.members)

def assignAll (ms : Members) : Members := ms.foldl (fun map m => put m.1 m.2 map) []

def elementOf : Json → Json
  | .null => .string []
  | v => v

def elements (ms : Members) : Members := ms.map fun m => (m.1, elementOf m.2)

theorem sorted_foldl_put {map : Members} (h : Sorted map) (ms : Members) :
    Sorted (ms.foldl (fun map m => put m.1 m.2 map) map) := by
  induction ms generalizing map with
  | nil => exact h
  | cons m ms ih => exact ih (sorted_put h)

theorem mem_foldl_put {map ms : Members} (h : m ∈ ms.foldl (fun map m => put m.1 m.2 map) map) :
    m ∈ map ∨ m ∈ ms := by
  induction ms generalizing map with
  | nil => exact .inl h
  | cons m' ms ih =>
    rcases ih h with h | h
    · rcases mem_put h with rfl | h
      · exact .inr mem_cons_self
      · exact .inl h
    · exact .inr (mem_cons_of_mem m' h)

theorem foldl_put_of_sorted {map : Members} (h : Sorted (map ++ ms)) :
    ms.foldl (fun map m => put m.1 m.2 map) map = map ++ ms := by
  induction ms generalizing map with
  | nil => exact (append_nil map).symm
  | cons m ms ih =>
    have hlast : put m.1 m.2 map = map ++ [m] :=
      put_last fun p hp => (pairwise_append.mp h).2.2 p hp m mem_cons_self
    rw [append_cons] at h ⊢
    rw [foldl_cons, hlast, ih h]

def ofText (s : List Char) : Option TraceContext :=
  match parse s with
  | some .null => some empty
  | some (.object ms) =>
    if h : ∀ m ∈ elements ms, (asString m.2).isSome then
      some ⟨assignAll (elements ms), sorted_foldl_put .nil _, fun m hm =>
        (mem_foldl_put hm).elim (fun hm => absurd hm List.not_mem_nil) (h m)⟩
    else none
  | _ => none

theorem elementOf_text (h : (asString v).isSome) : elementOf v = v := by
  cases v <;> first | rfl | cases h

theorem ofText_toText (c : TraceContext) : ofText c.toText = some c := by
  have hliteral : Literal (.object c.members) := literalMembers_iff.mpr fun m hm => by
    obtain ⟨s, hs⟩ := isSome_iff_exists.mp (c.texts m hm)
    cases hv : m.2 with
    | string s => trivial
    | null | bool | number | array | object => rw [hv] at hs; cases hs
  have hsame : elements c.members = c.members := by
    refine (map_congr_left fun m hm => ?_).trans c.members.map_id
    rw [elementOf_text (c.texts m hm)]
    rfl
  have htexts : ∀ m ∈ elements c.members, (asString m.2).isSome :=
    hsame.symm ▸ c.texts
  rw [ofText, toText, marshal, parse_write .compact hliteral]
  dsimp only
  rw [dif_pos htexts]
  have hassigned : assignAll (elements c.members) = c.members := by
    rw [assignAll, hsame]
    exact foldl_put_of_sorted c.sorted
  exact congrArg some (TraceContext.ext hassigned)

theorem toText_ne_nil (c : TraceContext) : utf8 c.toText ≠ [] := fun hnil => by
  have hread := c.ofText_toText
  rw [← runes_utf8 c.toText, hnil] at hread
  cases hread

end TraceContext

def leadingNumber (s : List Char) : Option Nat := Text.digits (s.takeWhile Char.isDigit)

def signedNumber : List Char → Option Int
  | '-' :: ds => (leadingNumber ds).map fun n : Nat => -(n : Int)
  | '+' :: ds => (leadingNumber ds).map fun n : Nat => (n : Int)
  | ds => (leadingNumber ds).map fun n : Nat => (n : Int)

/-- `fmt.Sscanf(s, "%d", &n)`: what follows the number does not matter. -/
def sscanInt (s : List Char) : Option Int64 :=
  ((signedNumber (s.dropWhile fun c => Text.isSpace c && c ≠ '\n')).filter fun n =>
    -2 ^ 63 ≤ n ∧ n < 2 ^ 63).map Int64.ofInt

theorem leadingNumber_toDigits (n : Nat) : leadingNumber (Nat.toDigits 10 n) = some n := by
  have hdigits : ∀ c ∈ Nat.toDigits 10 n, c.isDigit = true := fun c hc =>
    Nat.isDigit_of_mem_toDigits (by decide) (by decide) hc
  rw [leadingNumber, takeWhile_eq_self_iff.mpr hdigits, Text.digits_toDigits]

theorem not_space_of_isDigit (h : c.isDigit = true) : Text.isSpace c = false := by
  simp only [Char.isDigit, Bool.and_eq_true, decide_eq_true_eq] at h
  have hlow : 48 ≤ c.toNat := UInt32.le_iff_toNat_le.mp h.1
  have hhigh : c.toNat ≤ 57 := UInt32.le_iff_toNat_le.mp h.2
  exact Text.isSpace_of_visible (by omega) (by omega)

theorem signedNumber_of_isDigit (h : c.isDigit = true) (ds : List Char) :
    signedNumber (c :: ds) = (leadingNumber (c :: ds)).map fun n : Nat => (n : Int) := by
  unfold signedNumber
  split
  · rename_i heq
    obtain rfl := (cons.inj heq).1
    exact absurd h (by decide)
  · rename_i heq
    obtain rfl := (cons.inj heq).1
    exact absurd h (by decide)
  · rfl

theorem sscanInt_of_signedNumber (hs : ∀ c ∈ s.head?, Text.isSpace c = false)
    (h : signedNumber s = some n.toInt) : sscanInt s = some n := by
  have hrange : -2 ^ 63 ≤ n.toInt ∧ n.toInt < 2 ^ 63 := ⟨n.le_toInt, n.toInt_lt⟩
  have hskip : (s.dropWhile fun c => Text.isSpace c && c ≠ '\n') = s := by
    cases s with
    | nil => rfl
    | cons c s => exact dropWhile_cons_of_neg (by simp [hs c rfl])
  rw [sscanInt, hskip, h, filter_some, if_pos (decide_eq_true hrange), map_some,
    Int64.ofInt_toInt]

theorem sscanInt_integer (n : Int64) : sscanInt (integer n.toInt) = some n := by
  rw [integer]
  split
  · refine sscanInt_of_signedNumber (fun c hc => ?_) ?_
    · obtain rfl := some.inj hc
      decide
    · rw [signedNumber, leadingNumber_toDigits, map_some]
      exact congrArg some (by omega)
  · obtain ⟨c, ds, hds⟩ := exists_cons_of_ne_nil (Nat.toDigits_ne_nil (b := 10) (n := n.toInt.natAbs))
    have hc : c.isDigit = true :=
      Nat.isDigit_of_mem_toDigits (b := 10) (by decide) (by decide) (hds ▸ mem_cons_self)
    have hnumber := leadingNumber_toDigits n.toInt.natAbs
    rw [hds] at hnumber ⊢
    refine sscanInt_of_signedNumber (fun c' hc' => ?_) ?_
    · obtain rfl := some.inj hc'
      exact not_space_of_isDigit hc
    · rw [signedNumber_of_isDigit hc, hnumber, map_some]
      exact congrArg some (by omega)

def zeroTime : Time where
  wall := 86400 * 366
  nanos := 0
  offset := 0
  wall_lt := by decide
  nanos_lt := Time.zero_lt_second
  offset_lt := by decide

structure ScanJob where
  id : Bytes := []
  status : Bytes := []
  apkPath : Bytes := []
  fileType : Bytes := []
  originalFilename : Bytes := []
  createdAt : Time := zeroTime
  startedAt : Option Time := none
  completedAt : Option Time := none
  failedAt : Option Time := none
  error : Bytes := []
  phase : Bytes := []
  result : Bytes := []
  workerID : Bytes := []
  retryCount : Int64 := 0
  webhookURL : Bytes := []
  webhookSecret : Bytes := []
  scanTimeout : Int64 := 0
  storageKey : Bytes := []
  requestID : Bytes := []
  traceContext : TraceContext := .empty

inductive Value
  | str (s : Bytes)
  | int (n : Int64)

def formatTimePtr : Option Time → Bytes
  | none => []
  | some t => utf8 t.format

def unlessEmpty (empty : Prop) [Decidable empty] (v : Value) : Option Value :=
  if empty then none else some v

/-- The fields of a job; those without a value are not written.  The phase is not among them. -/
def ScanJob.fields (j : ScanJob) : List (String × Option Value) :=
  [("id", some (.str j.id)), ("apk_path", some (.str j.apkPath)),
    ("original_filename", some (.str j.originalFilename)),
    ("created_at", some (.str (utf8 j.createdAt.format))), ("status", some (.str j.status)),
    ("error", some (.str j.error)), ("worker_id", some (.str j.workerID)),
    ("retry_count", some (.int j.retryCount)), ("storage_key", some (.str j.storageKey)),
    ("started_at", some (.str (formatTimePtr j.startedAt))),
    ("completed_at", some (.str (formatTimePtr j.completedAt))),
    ("failed_at", some (.str (formatTimePtr j.failedAt))),
    ("result", unlessEmpty (j.result = []) (.str j.result)),
    ("webhook_url", unlessEmpty (j.webhookURL = []) (.str j.webhookURL)),
    ("webhook_secret", unlessEmpty (j.webhookSecret = []) (.str j.webhookSecret)),
    ("scan_timeout", unlessEmpty (¬ 0 < j.scanTimeout) (.int j.scanTimeout)),
    ("request_id", unlessEmpty (j.requestID = []) (.str j.requestID)),
    ("file_type", unlessEmpty (j.fileType = []) (.str j.fileType)),
    ("trace_context", unlessEmpty (j.traceContext.members = []) (.str (utf8 j.traceContext.toText)))]

def given (fields : List (String × Option Value)) : List (String × Value) :=
  fields.filterMap fun f => f.2.map fun v => (f.1, v)

def ScanJob.toMap (j : ScanJob) : List (String × Value) := given j.fields

section FromMap

-- The general parser of the package time is tried where parseRFC3339 fails.
variable (parseSlow : List Char → Option Time) (m : String → Option Value)

def parseTime (s : Bytes) : Option Time := (Time.parseRFC3339 (runes s)).or (parseSlow (runes s))

def strField (key : String) : Option Bytes :=
  match m key with
  | some (.str s) => some s
  | some (.int _) | none => none

def timeField (key : String) (old : Option Time) : Option Time :=
  match strField m key with
  | none => old
  | some s => if s = [] then none else (parseTime parseSlow s).or old

def intField (key : String) (old : Int64) : Int64 :=
  match m key with
  | some (.int n) => n
  | some (.str s) => (sscanInt (runes s)).getD old
  | none => old

def traceField (old : TraceContext) : TraceContext :=
  match strField m "trace_context" with
  | none => old
  | some s => if s = [] then old else (TraceContext.ofText (runes s)).getD old

def ScanJob.fromMap (j : ScanJob) : ScanJob where
  id := (strField m "id").getD j.id
  status := (strField m "status").getD j.status
  apkPath := (strField m "apk_path").getD j.apkPath
  originalFilename := (strField m "original_filename").getD j.originalFilename
  createdAt := ((strField m "created_at").bind (parseTime parseSlow)).getD j.createdAt
  startedAt := timeField parseSlow m "started_at" j.startedAt
  completedAt := timeField parseSlow m "completed_at" j.completedAt
  failedAt := timeField parseSlow m "failed_at" j.failedAt
  error := (strField m "error").getD j.error
  phase := (strField m "phase").getD j.phase
  result := (strField m "result").getD j.result
  workerID := (strField m "worker_id").getD j.workerID
  storageKey := (strField m "storage_key").getD j.storageKey
  retryCount := intField m "retry_count" j.retryCount
  webhookURL := (strField m "webhook_url").getD j.webhookURL
  webhookSecret := (strField m "webhook_secret").getD j.webhookSecret
  requestID := (strField m "request_id").getD j.requestID
  fileType := (strField m "file_type").getD j.fileType
  scanTimeout := intField m "scan_timeout" j.scanTimeout
  traceContext := traceField m j.traceContext

end FromMap

abbrev Hash := String → Option Bytes

def Value.arg : Value → Bytes
  | .str s => s
  | .int n => utf8 (integer n.toInt)

def hset (h : Hash) (fields : List (String × Value)) : Hash :=
  fields.foldl (fun h f => Function.update h f.1 (some f.2.arg)) h

def convertMap (h : Hash) : String → Option Value := fun key => (h key).map .str

def readJob (parseSlow : List Char → Option Time) (h : Hash) : ScanJob :=
  ScanJob.fromMap parseSlow (convertMap h) {}

/-- The job that a hash holds after `j` was written over one that held `old`. -/
def ScanJob.writtenOver (j old : ScanJob) : ScanJob where
  id := j.id
  status := j.status
  apkPath := j.apkPath
  originalFilename := j.originalFilename
  createdAt := j.createdAt.truncate
  startedAt := j.startedAt.map Time.truncate
  completedAt := j.completedAt.map Time.truncate
  failedAt := j.failedAt.map Time.truncate
  error := j.error
  workerID := j.workerID
  retryCount := j.retryCount
  storageKey := j.storageKey
  phase := old.phase
  result := if j.result = [] then old.result else j.result
  webhookURL := if j.webhookURL = [] then old.webhookURL else j.webhookURL
  webhookSecret := if j.webhookSecret = [] then old.webhookSecret else j.webhookSecret
  scanTimeout := if 0 < j.scanTimeout then j.scanTimeout else old.scanTimeout
  requestID := if j.requestID = [] then old.requestID else j.requestID
  fileType := if j.fileType = [] then old.fileType else j.fileType
  traceContext := if j.traceContext.members = [] then old.traceContext else j.traceContext

section Written

variable {j : ScanJob}

def putField (h : Hash) (f : String × Option Value) : Hash :=
  f.2.elim h fun v => Function.update h f.1 (some v.arg)

theorem hset_cons (f : String × Option Value) :
    hset h (given (f :: fields)) = hset (putField h f) (given fields) := by
  obtain ⟨name, v⟩ := f
  cases v <;> rfl

theorem putField_of_ne (hne : key ≠ f.1) : putField h f key = h key := by
  obtain ⟨name, v⟩ := f
  cases v with
  | none => rfl
  | some v => exact update_of_ne hne ..

theorem putField_self (v : Option Value) : putField h (key, v) key = (v.map Value.arg).or (h key) := by
  cases v with
  | none => rfl
  | some v => exact update_self ..

theorem hset_of_not_mem (hkey : key ∉ fields.map Prod.fst) : hset h (given fields) key = h key := by
  induction fields generalizing h with
  | nil => rfl
  | cons f fields ih =>
    obtain ⟨hne, hrest⟩ := not_or.mp (mt mem_cons.mpr hkey)
    rw [hset_cons, ih hrest, putField_of_ne hne]

theorem hset_of_mem (hnodup : (fields.map Prod.fst).Nodup) (hmem : (key, v) ∈ fields) :
    hset h (given fields) key = (v.map Value.arg).or (h key) := by
  induction fields generalizing h with
  | nil => cases hmem
  | cons f fields ih =>
    obtain ⟨hf, hrest⟩ := nodup_cons.mp hnodup
    rw [hset_cons]
    rcases mem_cons.mp hmem with rfl | hmem
    · rw [hset_of_not_mem hf, putField_self]
    · have hne : key ≠ f.1 := fun he => hf (he ▸ List.mem_map_of_mem hmem)
      rw [ih hrest hmem, putField_of_ne hne]

theorem hset_toMap (hmem : (key, v) ∈ j.fields) :
    hset h j.toMap key = (v.map Value.arg).or (h key) := by
  have hkeys : j.fields.map Prod.fst = ["id", "apk_path", "original_filename", "created_at", "status",
      "error", "worker_id", "retry_count", "storage_key", "started_at", "completed_at", "failed_at",
      "result", "webhook_url", "webhook_secret", "scan_timeout", "request_id", "file_type",
      "trace_context"] := rfl
  exact hset_of_mem (hkeys ▸ by decide) hmem

theorem strField_written (hmem : (key, v) ∈ j.fields) :
    strField (convertMap (hset h j.toMap)) key =
      (v.map Value.arg).or (strField (convertMap h) key) := by
  rw [strField, strField, convertMap, convertMap, hset_toMap hmem]
  cases v <;> cases h key <;> rfl

theorem strField_text (hmem : (key, some (Value.str s)) ∈ j.fields) (old : Bytes) :
    (strField (convertMap (hset h j.toMap)) key).getD old = s := by
  rw [strField_written hmem]
  rfl

theorem strField_unlessEmpty {s : Bytes} (hmem : (key, unlessEmpty (s = []) (.str s)) ∈ j.fields)
    (old : Bytes) : (strField (convertMap (hset h j.toMap)) key).getD old =
      if s = [] then (strField (convertMap h) key).getD old else s := by
  rw [strField_written hmem, unlessEmpty]
  split <;> rfl

theorem parseTime_format (parseSlow : List Char → Option Time) (t : Time) :
    parseTime parseSlow (utf8 t.format) = some t.truncate := by
  rw [parseTime, runes_utf8, Time.parseRFC3339_format]
  rfl

theorem format_ne_nil (t : Time) : utf8 t.format ≠ [] := fun hnil => by
  have hread := Time.parseRFC3339_format t
  rw [← runes_utf8 t.format, hnil] at hread
  cases hread

theorem timeField_written (parseSlow : List Char → Option Time)
    (hmem : (key, some (Value.str (formatTimePtr t))) ∈ j.fields) (old : Option Time) :
    timeField parseSlow (convertMap (hset h j.toMap)) key old = t.map Time.truncate := by
  rw [timeField, strField_written hmem]
  cases t with
  | none => rfl
  | some t =>
    dsimp only [map_some, some_or, Value.arg, formatTimePtr]
    rw [if_neg (format_ne_nil t), parseTime_format]
    rfl

theorem intField_number (hmem : (key, some (Value.int n)) ∈ j.fields) (old : Int64) :
    intField (convertMap (hset h j.toMap)) key old = n := by
  rw [intField, convertMap, hset_toMap hmem]
  dsimp only [map_some, some_or, Value.arg]
  rw [runes_utf8, sscanInt_integer]
  rfl

theorem intField_unlessEmpty [Decidable empty] (hmem : (key, unlessEmpty empty (.int n)) ∈ j.fields)
    (old : Int64) :
    intField (convertMap (hset h j.toMap)) key old =
      if empty then intField (convertMap h) key old else n := by
  by_cases hn : empty
  · rw [unlessEmpty, if_pos hn] at hmem
    rw [if_pos hn, intField, intField, convertMap, convertMap, hset_toMap hmem]
    rfl
  · rw [unlessEmpty, if_neg hn] at hmem
    rw [if_neg hn, intField_number hmem]

theorem traceField_written (h : Hash) (j : ScanJob) (old : TraceContext) :
    traceField (convertMap (hset h j.toMap)) old =
      if j.traceContext.members = [] then traceField (convertMap h) old else j.traceContext := by
  have hmem : ("trace_context", unlessEmpty (j.traceContext.members = [])
      (.str (utf8 j.traceContext.toText))) ∈ j.fields := by
    simp [ScanJob.fields]
  by_cases hempty : j.traceContext.members = []
  · rw [unlessEmpty, if_pos hempty] at hmem
    rw [if_pos hempty, traceField, strField_written hmem]
    rfl
  · rw [unlessEmpty, if_neg hempty] at hmem
    rw [if_neg hempty, traceField, strField_written hmem]
    dsimp only [map_some, some_or, Value.arg]
    rw [if_neg j.traceContext.toText_ne_nil, runes_utf8, TraceContext.ofText_toText]
    rfl

theorem job_written_over (parseSlow : List Char → Option Time) (h : Hash) (j : ScanJob) :
    readJob parseSlow (hset h j.toMap) = j.writtenOver (readJob parseSlow h) := by
  have hcreated : ("created_at", some (Value.str (utf8 j.createdAt.format))) ∈ j.fields := by
    simp [ScanJob.fields]
  have htimeout : ("scan_timeout", unlessEmpty (¬ 0 < j.scanTimeout) (.int j.scanTimeout)) ∈
      j.fields := by
    simp [ScanJob.fields]
  have hphase : strField (convertMap (hset h j.toMap)) "phase" = strField (convertMap h) "phase" := by
    have hkept : hset h j.toMap "phase" = h "phase" := hset_of_not_mem (by simp [ScanJob.fields])
    rw [strField, strField, convertMap, convertMap, hkept]
  simp only [readJob, ScanJob.fromMap, ScanJob.writtenOver, ScanJob.mk.injEq]
  refine ⟨?_, ?_, ?_, ?_, ?_, ?_, ?_, ?_, ?_, ?_, ?_, ?_, ?_, ?_, ?_, ?_, ?_, ?_, ?_, ?_⟩
  · exact strField_text (by simp [ScanJob.fields]) _
  · exact strField_text (by simp [ScanJob.fields]) _
  · exact strField_text (by simp [ScanJob.fields]) _
  · exact strField_unlessEmpty (by simp [ScanJob.fields]) _
  · exact strField_text (by simp [ScanJob.fields]) _
  · rw [strField_written hcreated, map_some, some_or, bind_some, Value.arg,
      parseTime_format]
    rfl
  · exact timeField_written parseSlow (by simp [ScanJob.fields]) _
  · exact timeField_written parseSlow (by simp [ScanJob.fields]) _
  · exact timeField_written parseSlow (by simp [ScanJob.fields]) _
  · exact strField_text (by simp [ScanJob.fields]) _
  · rw [hphase]
  · exact strField_unlessEmpty (by simp [ScanJob.fields]) _
  · exact strField_text (by simp [ScanJob.fields]) _
  · exact intField_number (by simp [ScanJob.fields]) _
  · exact strField_unlessEmpty (by simp [ScanJob.fields]) _
  · exact strField_unlessEmpty (by simp [ScanJob.fields]) _
  · rw [intField_unlessEmpty htimeout, ite_not]
  · exact strField_text (by simp [ScanJob.fields]) _
  · exact strField_unlessEmpty (by simp [ScanJob.fields]) _
  · exact traceField_written h j _

end Written

end Morf.Models
