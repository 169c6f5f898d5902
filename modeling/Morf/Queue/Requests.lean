import Morf.Queue.Store

/-! What the HTTP handlers of `router/routers.go` do to the store, and the protocol of
each request. -/

namespace Morf.Queue

open Morf.Lib

/-- What the upload handler knows of an accepted file.  `id` and `storageKey` are fresh
UUIDs, the key with the extension of the file. -/
structure Upload where
  id : JobId
  storageKey : StorageKey
  fileType : String := ""
  originalFilename : String := ""
  createdAt : Time := 0
  scanTimeout : Nat := 0
  webhookURL : String := ""
  webhookSecret : String := ""
  requestID : String := ""
  traceContext : List (String × String) := []

def Upload.job (u : Upload) : ScanJob where
  id := u.id
  status := .queued
  storageKey := u.storageKey
  apkPath := u.storageKey
  fileType := u.fileType
  originalFilename := u.originalFilename
  createdAt := u.createdAt
  scanTimeout := u.scanTimeout
  webhookURL := u.webhookURL
  webhookSecret := u.webhookSecret
  requestID := u.requestID
  traceContext := u.traceContext

def upload (u : Upload) (limit : Int) : Op (Except QueueError Unit) := do
  match ← remote (.put u.storageKey) with
  | .error e => return .error (.text e)
  | .ok _ =>
    match ← enqueueJobAtomicWithLimit u.job limit 1 with
    | .error e =>
      let _ ← remote (.delete u.storageKey)
      return .error e
    | .ok _ => return .ok ()

inductive Request
  | uploading (job : ScanJob)
  | stored (job : ScanJob)
  | undoing (job : ScanJob)
  | enqueuing (job : ScanJob)
  | cancelling (j : JobId)
  | retrying (j : JobId)
  | removed (j : JobId)
  | resubmitting (job : ScanJob)
  | done

def requestNext : Protocol Cmd Reply Request := fun p c r =>
  match p with
  | .uploading job =>
    match c, r with
    | .remote (.put key), .ok _ => if key = job.storageKey then some (.stored job) else none
    | .remote (.put key), .error _ => if key = job.storageKey then some .done else none
    | _, _ => none
  | .stored job =>
    match c, r with
    | .remote (.enqueueWithLimitScript job' _ _), .ok true =>
      if job' = job then some .done else none
    | .remote (.enqueueWithLimitScript job' _ _), .ok false =>
      if job' = job then some (.undoing job) else none
    | .remote (.enqueueWithLimitScript job' _ _), .error _ =>
      if job' = job then some (.undoing job) else none
    | _, _ => none
  | .undoing job =>
    match c with
    | .remote (.delete key) => if key = job.storageKey then some .done else none
    | _ => none
  | .enqueuing job =>
    match c with
    | .remote (.enqueueScript job') => if job' = job then some .done else none
    | .remote (.enqueueWithLimitScript job' _ _) => if job' = job then some .done else none
    | _ => none
  | .cancelling j =>
    match c with
    | .now => some (.cancelling j)
    | .remote (.cancelJobScript j' _) => if j' = j then some .done else none
    | _ => none
  | .retrying j =>
    match c, r with
    | .remote (.retryDLQRemoveScript j'), .ok true => if j' = j then some (.removed j) else none
    | .remote (.retryDLQRemoveScript j'), .ok false => if j' = j then some .done else none
    | .remote (.retryDLQRemoveScript j'), .error _ => if j' = j then some .done else none
    | _, _ => none
  | .removed j =>
    match c, r with
    | .remote (.hgetall j'), .ok (some h) =>
      if j' = j then some (.resubmitting h.fromMap.resubmitted) else none
    | .remote (.hgetall j'), .ok none => if j' = j then some .done else none
    | .remote (.hgetall j'), .error _ => if j' = j then some .done else none
    | _, _ => none
  | .resubmitting job =>
    match c with
    | .remote (.enqueueScript job') => if job' = job then some .done else none
    | _ => none
  | .done => none

inductive Request.Step : Request → (c : Cmd) → Reply c → Request → Prop
  | put : Step (.uploading job) (.remote (.put job.storageKey)) (.ok u) (.stored job)
  | putError : Step (.uploading job) (.remote (.put job.storageKey)) (.error m) .done
  | publish : Step (.stored job) (.remote (.enqueueWithLimitScript job l n)) (.ok true) .done
  | full : Step (.stored job) (.remote (.enqueueWithLimitScript job l n)) (.ok false)
      (.undoing job)
  | publishError : Step (.stored job) (.remote (.enqueueWithLimitScript job l n)) (.error m)
      (.undoing job)
  | undo : Step (.undoing job) (.remote (.delete job.storageKey)) r .done
  | enqueue : Step (.enqueuing job) (.remote (.enqueueScript job)) r .done
  | enqueueWithLimit :
      Step (.enqueuing job) (.remote (.enqueueWithLimitScript job l n)) r .done
  | clock : Step (.cancelling j) .now r (.cancelling j)
  | cancel : Step (.cancelling j) (.remote (.cancelJobScript j t)) r .done
  | remove : Step (.retrying j) (.remote (.retryDLQRemoveScript j)) (.ok true) (.removed j)
  | absent : Step (.retrying j) (.remote (.retryDLQRemoveScript j)) (.ok false) .done
  | removeError : Step (.retrying j) (.remote (.retryDLQRemoveScript j)) (.error m) .done
  | reread : Step (.removed j) (.remote (.hgetall j)) (.ok (some h))
      (.resubmitting h.fromMap.resubmitted)
  | missing : Step (.removed j) (.remote (.hgetall j)) (.ok none) .done
  | rereadError : Step (.removed j) (.remote (.hgetall j)) (.error m) .done
  | resubmit : Step (.resubmitting job) (.remote (.enqueueScript job)) r .done

def Cmd.ofRequest : Cmd → Bool
  | .remote (.put _) | .remote (.delete _) | .remote (.enqueueScript _)
  | .remote (.enqueueWithLimitScript _ _ _) | .remote (.cancelJobScript _ _)
  | .remote (.retryDLQRemoveScript _) | .remote (.hgetall _) | .now => true
  | _ => false

theorem Request.Step.foreign {r : Reply c} (h : Request.Step p c r p') (hc : d.ofRequest = false) :
    c ≠ d := by
  rintro rfl
  cases h <;> cases hc

theorem requestNext_step {r : Reply c} (h : requestNext p c r = some p') :
    Request.Step p c r p' := by
  unfold requestNext at h
  cases p with
  | done => cases h
  | _ =>
    dsimp only at h
    split at h <;> grind [Request.Step]

theorem upload_obeys (u : Upload) (limit : Int) :
    (upload u limit).Obeys requestNext (fun m _ => m = .done) (.uploading u.job) := by
  intro r
  cases r with
  | error e => exact ⟨.done, if_pos rfl, rfl⟩
  | ok _ =>
    refine ⟨.stored u.job, if_pos rfl, fun r => ?_⟩
    rcases r with e | _ | _
    · exact ⟨_, if_pos rfl, fun _ => ⟨.done, if_pos rfl, rfl⟩⟩
    · exact ⟨_, if_pos rfl, fun _ => ⟨.done, if_pos rfl, rfl⟩⟩
    · exact ⟨_, if_pos rfl, rfl⟩

theorem enqueueJobAtomic_obeys :
    (enqueueJobAtomic job).Obeys requestNext (fun m _ => m = .done) (.enqueuing job) := by
  intro r
  refine ⟨.done, if_pos rfl, ?_⟩
  cases r <;> rfl

theorem enqueueJobAtomicWithLimit_obeys (limit count : Int) :
    (enqueueJobAtomicWithLimit job limit count).Obeys requestNext (fun m _ => m = .done)
      (.enqueuing job) := by
  intro r
  refine ⟨.done, if_pos rfl, ?_⟩
  cases r <;> rfl

theorem cancelJob_obeys :
    (cancelJob j).Obeys requestNext (fun m _ => m = .done) (.cancelling j) := by
  intro t
  refine ⟨.cancelling j, rfl, fun r => ⟨.done, if_pos rfl, ?_⟩⟩
  cases r with
  | error e => rfl
  | ok n =>
    show Prog.Obeys _ _ (if n = 0 then _ else if n = -1 then _ else _) _
    split
    · rfl
    · split <;> rfl

theorem retryDLQJob_obeys :
    (retryDLQJob j).Obeys requestNext (fun m _ => m = .done) (.retrying j) := by
  intro r
  rcases r with e | _ | _
  · exact ⟨.done, if_pos rfl, rfl⟩
  · exact ⟨.done, if_pos rfl, rfl⟩
  · refine ⟨.removed j, if_pos rfl, fun r => ?_⟩
    rcases r with e | _ | h
    · exact ⟨.done, if_pos rfl, rfl⟩
    · exact ⟨.done, if_pos rfl, rfl⟩
    · refine ⟨_, if_pos rfl, fun r => ⟨.done, if_pos rfl, ?_⟩⟩
      cases r <;> rfl

end Morf.Queue
