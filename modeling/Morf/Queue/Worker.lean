import Morf.Lib.Text
import Morf.Queue.Store

/-! The job life cycle of `worker/worker.go` as programs over the store. -/

namespace Morf.Queue

open Morf.Lib

/-- `workerMaxRetries`, whether `getWorkerStore` yields a backend, and the reaper's
`staleAfter`. -/
structure Config where
  maxRetries : Nat := 3
  hasStore : Bool := true
  staleAfter : Time := 120

variable (cfg : Config)

/-- `isRetryable`: the typed sentinels come before the text of the error. -/
def isRetryable (err : ScanError) : Bool :=
  if err.nonRetryable then false
  else if err.retryable then true
  else
    let msg := err.msg.toList.map Char.toLower
    !(["safety check failed", "decompilation failed", "validation failed"].any
      fun sub => Text.contains sub.toList msg)

/-- `Duration.String` for whole seconds. -/
def durationString (s : Nat) : String :=
  if 3600 ≤ s then
    toString (s / 3600) ++ "h" ++ toString (s / 60 % 60) ++ "m" ++ toString (s % 60) ++ "s"
  else if 60 ≤ s then toString (s / 60) ++ "m" ++ toString (s % 60) ++ "s"
  else toString s ++ "s"

def scanTimeout (job : ScanJob) : Nat := if 0 < job.scanTimeout then job.scanTimeout else 30 * 60

def scanError (job : ScanJob) (err : ScanError) (deadline : Bool) : ScanError :=
  if deadline then
    { msg := "scan timeout exceeded (" ++ durationString (scanTimeout job) ++ "): " ++ err.msg }
  else err

inductive ScanOutcome
  | done (result : ScanResult)
  | fail (err : ScanError) (deadline : Bool)
  | panic (msg : String)

def scanPhase (job : ScanJob) (phase : String) (k : ScanResult → Op ScanOutcome) :
    Op ScanOutcome := do
  setJobPhase job.id phase
  match ← (.call (.analyze job phase) .ret : Op Stage) with
  | .next r => k r
  | .done r => return .done r
  | .fail e d => return .fail e d
  | .panic m => return .panic m

def scanAPK (job : ScanJob) : Op ScanOutcome :=
  scanPhase job "unpacking" fun _ =>
  scanPhase job "parsing" fun _ =>
  scanPhase job "scanning" fun _ =>
  scanPhase job "compiling" fun r => return .done r

def scanIPA (job : ScanJob) : Op ScanOutcome :=
  scanPhase job "unpacking" fun _ =>
  scanPhase job "scanning" fun _ =>
  scanPhase job "compiling" fun r => return .done r

def scan (job : ScanJob) : Op ScanOutcome :=
  if job.fileType.toList.map Char.toLower = "ipa".toList then scanIPA job else scanAPK job

def deleteUploadedArtifact (job : ScanJob) : Op Unit :=
  if job.storageKey = "" then return ()
  else if cfg.hasStore then do
    let _ ← remote (.delete job.storageKey)
  else return ()

def dispatchWebhook (job : ScanJob) : Op Unit :=
  if job.webhookURL = "" then return () else .call (.webhook job.id job.status) .ret

/-! The assignments of the life cycle to the fields of a job. -/

def ScanJob.started (job : ScanJob) (w : WorkerId) (t : Time) : ScanJob :=
  { job with status := .processing, startedAt := some t, workerID := w }

def ScanJob.finished (job : ScanJob) (t : Time) (resultJSON : String) : ScanJob :=
  { job with status := .completed, completedAt := some t, result := resultJSON }

def ScanJob.failedWith (job : ScanJob) (t : Time) (err : String) : ScanJob :=
  { job with
    status := .failed, failedAt := some t, error := err, retryCount := job.retryCount + 1 }

def ScanJob.backToQueue (job : ScanJob) : ScanJob :=
  { job with status := .queued, startedAt := none, workerID := "" }

def retryJob (job : ScanJob) : Op Bool := do
  match ← updateJob job with
  | .ok _ =>
    let _ ← pushJob job.id
    dispatchWebhook job
    return true
  | .error _ =>
    dispatchWebhook job
    return false

def buryJob (job : ScanJob) : Op Bool := do
  match ← updateJob job with
  | .ok _ =>
    let _ ← moveToDLQ job.id
    deleteUploadedArtifact cfg job
    dispatchWebhook job
    return true
  | .error _ =>
    dispatchWebhook job
    return false

def handleJobFailure (w : WorkerId) (job : ScanJob) (err : ScanError) : Op Bool := do
  match ← checkJobLease job.id w with
  | .ok false => return true
  | _ =>
    let t ← now
    let job := job.failedWith t err.msg
    if isRetryable err ∧ job.retryCount < cfg.maxRetries then retryJob job.backToQueue
    else buryJob cfg job

def completeJob (job : ScanJob) : Op Bool := do
  match ← updateJob job with
  | .error _ => return false
  | .ok _ =>
    clearJobLease job.id
    deleteUploadedArtifact cfg job
    dispatchWebhook job
    return true

def handleJobSuccess (w : WorkerId) (job : ScanJob) (result : ScanResult) : Op Bool := do
  match ← checkJobLease job.id w with
  | .ok false => return true
  | _ =>
    match result.marshalled with
    | .error e => handleJobFailure cfg w job { msg := "failed to marshal result: " ++ e }
    | .ok resultJSON =>
      let t ← now
      completeJob cfg (job.finished t resultJSON)

/-- What `processJob` does with the outcome of the scan.  A panic goes straight to
`handleJobFailure`; an error first looks whether the job was cancelled meanwhile. -/
def finishJob (w : WorkerId) (j : JobId) (job : ScanJob) : ScanOutcome → Op Bool
  | .done result => handleJobSuccess cfg w job result
  | .panic m => handleJobFailure cfg w job { msg := "panic in scan: " ++ m }
  | .fail err deadline => do
    match ← getJob j with
    | .ok updated =>
      if updated.status = .cancelled then
        deleteUploadedArtifact cfg job
        return true
      else handleJobFailure cfg w job (scanError job err deadline)
    | .error _ => handleJobFailure cfg w job (scanError job err deadline)

def runJob (w : WorkerId) (j : JobId) (job : ScanJob) : Op Bool := do
  let t ← now
  let job := job.started w t
  match ← updateJob job with
  | .error _ => return true
  | .ok _ =>
    let _ ← setJobLease j w
    match ← checkJobLease j w with
    | .ok false => return true
    | _ =>
      let outcome ← scan job
      finishJob cfg w j job outcome

def processBody (w : WorkerId) (j : JobId) : Op Bool := do
  match ← getJob j with
  | .error _ => return true
  | .ok job =>
    if job.status = .completed ∨ job.status = .failed then return true
    else if job.status = .cancelled then
      deleteUploadedArtifact cfg job
      return true
    else runJob cfg w j job

def processJob (w : WorkerId) (j : JobId) : Op Unit := do
  if ← processBody cfg w j then
    let _ ← ackJob w j

def popAndProcess (w : WorkerId) : Op Unit := do
  match ← popJobReliable w with
  | .error _ => return ()
  | .ok j => processJob cfg w j

end Morf.Queue
