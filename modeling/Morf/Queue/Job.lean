import Morf.Lib.Program

/-! The job record of `models/ScanJob.go`, the Redis hash it is stored in, and
`ToMap` / `FromMap` between the two. -/

namespace Morf.Queue

abbrev JobId := String
abbrev WorkerId := String
abbrev StorageKey := String

/-- Seconds since the epoch: every time goes through Redis as RFC 3339 text. -/
abbrev Time := Nat

/-- `JobStatus` is a string type in the source; `unset` is its zero value. -/
inductive JobStatus
  | unset | queued | processing | completed | failed | cancelled
  deriving DecidableEq, Repr

structure ScanJob where
  id : JobId
  status : JobStatus
  apkPath : String := ""
  fileType : String := ""
  originalFilename : String := ""
  createdAt : Time := 0
  startedAt : Option Time := none
  completedAt : Option Time := none
  failedAt : Option Time := none
  error : String := ""
  phase : String := ""
  result : String := ""
  workerID : WorkerId := ""
  retryCount : Nat := 0
  webhookURL : String := ""
  webhookSecret : String := ""
  scanTimeout : Nat := 0
  storageKey : StorageKey := ""
  requestID : String := ""
  traceContext : List (String × String) := []
  deriving DecidableEq

/-- The fields of the hash `morf:jobs:<id>`; `none` is an absent field. -/
structure JobHash where
  id : Option JobId := none
  status : Option JobStatus := none
  apkPath : Option String := none
  fileType : Option String := none
  originalFilename : Option String := none
  createdAt : Option Time := none
  startedAt : Option (Option Time) := none
  completedAt : Option (Option Time) := none
  failedAt : Option (Option Time) := none
  error : Option String := none
  phase : Option String := none
  result : Option String := none
  workerID : Option WorkerId := none
  retryCount : Option Nat := none
  webhookURL : Option String := none
  webhookSecret : Option String := none
  scanTimeout : Option Nat := none
  storageKey : Option StorageKey := none
  requestID : Option String := none
  traceContext : Option (List (String × String)) := none
  deriving DecidableEq

/-- A field that `ToMap` leaves out when it is empty. -/
def nonEmpty (s : String) : Option String := if s = "" then none else some s

/-- `ToMap`: the mutable fields are always present, so that a cleared value
overwrites the old one; the creation-time fields are omitted when empty.  The
phase is never written here. -/
def ScanJob.toMap (j : ScanJob) : JobHash where
  id := some j.id
  status := some j.status
  apkPath := some j.apkPath
  originalFilename := some j.originalFilename
  createdAt := some j.createdAt
  error := some j.error
  workerID := some j.workerID
  retryCount := some j.retryCount
  storageKey := some j.storageKey
  startedAt := some j.startedAt
  completedAt := some j.completedAt
  failedAt := some j.failedAt
  result := nonEmpty j.result
  webhookURL := nonEmpty j.webhookURL
  webhookSecret := nonEmpty j.webhookSecret
  scanTimeout := if j.scanTimeout > 0 then some j.scanTimeout else none
  requestID := nonEmpty j.requestID
  fileType := nonEmpty j.fileType
  traceContext := if j.traceContext = [] then none else some j.traceContext

def JobHash.fromMap (h : JobHash) : ScanJob where
  id := h.id.getD ""
  status := h.status.getD .unset
  apkPath := h.apkPath.getD ""
  fileType := h.fileType.getD ""
  originalFilename := h.originalFilename.getD ""
  createdAt := h.createdAt.getD 0
  startedAt := h.startedAt.getD none
  completedAt := h.completedAt.getD none
  failedAt := h.failedAt.getD none
  error := h.error.getD ""
  phase := h.phase.getD ""
  result := h.result.getD ""
  workerID := h.workerID.getD ""
  retryCount := h.retryCount.getD 0
  webhookURL := h.webhookURL.getD ""
  webhookSecret := h.webhookSecret.getD ""
  scanTimeout := h.scanTimeout.getD 0
  storageKey := h.storageKey.getD ""
  requestID := h.requestID.getD ""
  traceContext := h.traceContext.getD []

/-- `HSET`: the fields of `new` overwrite those of `h`, the others stay. -/
def JobHash.hset (h new : JobHash) : JobHash where
  id := new.id <|> h.id
  status := new.status <|> h.status
  apkPath := new.apkPath <|> h.apkPath
  fileType := new.fileType <|> h.fileType
  originalFilename := new.originalFilename <|> h.originalFilename
  createdAt := new.createdAt <|> h.createdAt
  startedAt := new.startedAt <|> h.startedAt
  completedAt := new.completedAt <|> h.completedAt
  failedAt := new.failedAt <|> h.failedAt
  error := new.error <|> h.error
  phase := new.phase <|> h.phase
  result := new.result <|> h.result
  workerID := new.workerID <|> h.workerID
  retryCount := new.retryCount <|> h.retryCount
  webhookURL := new.webhookURL <|> h.webhookURL
  webhookSecret := new.webhookSecret <|> h.webhookSecret
  scanTimeout := new.scanTimeout <|> h.scanTimeout
  storageKey := new.storageKey <|> h.storageKey
  requestID := new.requestID <|> h.requestID
  traceContext := new.traceContext <|> h.traceContext

@[simp] theorem hset_toMap_id (h : JobHash) (j : ScanJob) : (h.hset j.toMap).id = some j.id := rfl

@[simp] theorem hset_toMap_status (h : JobHash) (j : ScanJob) :
    (h.hset j.toMap).status = some j.status := rfl

@[simp] theorem hset_toMap_storageKey (h : JobHash) (j : ScanJob) :
    (h.hset j.toMap).storageKey = some j.storageKey := rfl

@[simp] theorem hset_toMap_retryCount (h : JobHash) (j : ScanJob) :
    (h.hset j.toMap).retryCount = some j.retryCount := rfl

@[simp] theorem hset_toMap_result (h : JobHash) (j : ScanJob) :
    (h.hset j.toMap).result = (nonEmpty j.result <|> h.result) := rfl

@[simp] theorem fromMap_id (h : JobHash) : h.fromMap.id = h.id.getD "" := rfl

@[simp] theorem fromMap_status (h : JobHash) : h.fromMap.status = h.status.getD .unset := rfl

@[simp] theorem fromMap_storageKey (h : JobHash) : h.fromMap.storageKey = h.storageKey.getD "" := rfl

@[simp] theorem fromMap_retryCount (h : JobHash) : h.fromMap.retryCount = h.retryCount.getD 0 := rfl

@[simp] theorem fromMap_result (h : JobHash) : h.fromMap.result = h.result.getD "" := rfl

def JobStatus.isTerminal : JobStatus → Bool
  | .completed | .failed | .cancelled => true
  | .unset | .queued | .processing => false

def JobStatus.isActive : JobStatus → Bool
  | .queued | .processing => true
  | .unset | .completed | .failed | .cancelled => false

def nonTerminalStatuses : List JobStatus := [.queued, .processing]

end Morf.Queue
