import Mathlib.Algebra.Group.Nat.Defs
import Morf.Lib.Text
import Morf.Queue.Requests

/-! The two upload handlers of `router/routers.go`, command by command, next to the workers that pop
what they enqueue. -/

namespace Morf.Queue

open Morf.Lib

inductive Query
  | llen
  | cmd (c : Cmd)

abbrev Answer : Query → Type
  | .llen => Except String Nat
  | .cmd c => Reply c

abbrev Service := Prog Query Answer

def ask : Op α → Service α
  | .ret a => .ret a
  | .call c k => .call (.cmd c) fun r => ask (k r)

def getQueueDepth : Service (Except String Nat) := .call .llen .ret

structure UploadFile where
  filename : String
  size : Nat := 0
  storageID : String
  id : JobId
  createdAt : Time := 0

/-- The other fields of the form, and what `ValidateWebhookURL` has against the webhook. -/
structure UploadForm where
  webhookURL : String := ""
  webhookSecret : String := ""
  webhookError : Option String := none
  scanTimeout : Nat := 0
  requestID : String := ""
  traceContext : List (String × String) := []

def maxUploadSize : Nat := 500 * 2 ^ 20

def fileExt (filename : String) : List Char :=
  let last := filename.toList.reverse.takeWhile (· ≠ '/')
  if '.' ∈ last then '.' :: (last.takeWhile (· ≠ '.')).reverse else []

def isSupportedPackageExt (filename : String) : Bool :=
  let ext := (fileExt filename).map Text.toLower
  ext = ".apk".toList || ext = ".ipa".toList

def packageFileType (filename : String) : String :=
  if (fileExt filename).map Text.toLower = ".ipa".toList then "ipa" else "apk"

def hasTraversal (filename : String) : Bool :=
  let f := filename.toList
  Text.contains "..".toList f || f.contains '/' || f.contains '\\'

def UploadForm.webhookProblem (form : UploadForm) : Option String :=
  if form.webhookURL = "" then none
  else form.webhookError.map ("Invalid webhook_url: " ++ ·)

def UploadFile.storageKey (f : UploadFile) : StorageKey :=
  f.storageID ++ String.ofList (fileExt f.filename)

def UploadFile.upload (form : UploadForm) (f : UploadFile) : Upload where
  id := f.id
  storageKey := f.storageKey
  fileType := packageFileType f.filename
  originalFilename := f.filename
  createdAt := f.createdAt
  scanTimeout := form.scanTimeout
  webhookURL := form.webhookURL
  webhookSecret := form.webhookSecret
  requestID := form.requestID
  traceContext := form.traceContext

def UploadFile.bulkUpload (form : UploadForm) (f : UploadFile) : Upload where
  id := f.id
  storageKey := f.storageKey
  fileType := packageFileType f.filename
  originalFilename := f.filename
  createdAt := f.createdAt
  webhookURL := form.webhookURL
  webhookSecret := form.webhookSecret
  requestID := form.requestID

inductive IntakeError
  | storage (msg : String)
  | queue (err : QueueError)

def enqueueStored (limit : Int) (u : Upload) : Op (Except IntakeError Unit) := do
  match ← enqueueJobAtomicWithLimit u.job limit 1 with
  | .error e =>
    let _ ← remote (.delete u.storageKey)
    return .error (.queue e)
  | .ok _ => return .ok ()

def storeUpload (limit : Int) (u : Upload) : Op (Except IntakeError Unit) := do
  match ← remote (.put u.storageKey) with
  | .error e => return .error (.storage e)
  | .ok _ => enqueueStored limit u

structure Response where
  code : Nat
  jobIDs : List JobId := []
  errors : List String := []
  deriving DecidableEq

inductive Outcome
  | response (r : Response)
  | popped (r : Except QueueError JobId)

def Outcome.jobIDs : Outcome → List JobId
  | .response r => r.jobIDs
  | .popped _ => []

def refuse (code : Nat) (msg : String) : Outcome := .response ⟨code, [], [msg]⟩

def Upload.answer (u : Upload) : Except IntakeError Unit → Outcome
  | .ok _ => .response ⟨202, [u.id], []⟩
  | .error (.storage _) => refuse 500 "Failed to store uploaded file"
  | .error (.queue .queueFull) => refuse 429 "Queue is full, please try again later"
  | .error (.queue _) => refuse 500 "Failed to queue job"

def UploadFile.problem (f : UploadFile) : Option (Nat × String) :=
  if maxUploadSize < f.size then some (413, "File too large")
  else if !isSupportedPackageExt f.filename then some (400, "Only APK or IPA files are allowed")
  else if hasTraversal f.filename then some (400, "Invalid filename: path traversal detected")
  else none

def afterDepth (limit : Int) (form : UploadForm) (f : UploadFile) :
    Except String Nat → Service Outcome
  | .error _ => return refuse 429 "Queue backpressure check unavailable, please try again later"
  | .ok depth =>
    if limit < depth then return refuse 429 "Queue is full, please try again later"
    else
      match form.webhookProblem with
      | some msg => return refuse 400 msg
      | none => do
        let r ← ask (storeUpload limit (f.upload form))
        return (f.upload form).answer r

def uploadHandler (limit : Int) (form : UploadForm) (f : UploadFile) : Service Outcome :=
  match f.problem with
  | some (code, msg) => return refuse code msg
  | none => getQueueDepth >>= afterDepth limit form f

structure Batch where
  jobIDs : List JobId := []
  errors : List String := []

namespace Batch

def fail (b : Batch) (f : String) (msg : String) : Batch :=
  { b with errors := b.errors ++ [f ++ ": " ++ msg] }

def note (b : Batch) (u : Upload) : Except IntakeError Unit → Batch
  | .ok _ => { b with jobIDs := b.jobIDs ++ [u.id] }
  | .error (.storage e) => b.fail u.originalFilename ("Failed to store file: " ++ e)
  | .error (.queue .queueFull) => b.fail u.originalFilename "Queue is full, rejected"
  | .error (.queue e) => b.fail u.originalFilename ("Failed to queue job: " ++ e.msg)

def outcome (b : Batch) : Outcome :=
  .response ⟨if b.jobIDs = [] then 400 else 202, b.jobIDs, b.errors⟩

end Batch

def UploadFile.bulkProblem (f : UploadFile) : Option String :=
  if !isSupportedPackageExt f.filename then some "Only APK or IPA files are allowed"
  else if maxUploadSize < f.size then
    some ("File too large (max " ++ toString maxUploadSize ++ " bytes)")
  else if hasTraversal f.filename then some "Invalid filename: path traversal detected"
  else none

def bulkLoop (limit : Int) (form : UploadForm) : List UploadFile → Batch → Service Outcome
  | [], b => return b.outcome
  | f :: fs, b =>
    match f.bulkProblem with
    | some msg => bulkLoop limit form fs (b.fail f.filename msg)
    | none => do
      let r ← ask (storeUpload limit (f.bulkUpload form))
      bulkLoop limit form fs (b.note (f.bulkUpload form) r)

def bulkProblem (form : UploadForm) (files : List UploadFile) : Option String :=
  if files = [] then some "No files provided"
  else if 50 < files.length then some "Maximum 50 files allowed per bulk upload"
  else form.webhookProblem

def afterBulkDepth (limit : Int) (form : UploadForm) (files : List UploadFile) :
    Except String Nat → Service Outcome
  | .error _ => return refuse 429 "Queue backpressure check unavailable, please try again later"
  | .ok depth =>
    if limit < depth + files.length then
      return refuse 429 "Queue is too full for bulk upload, please try again later"
    else bulkLoop limit form files {}

def bulkUploadHandler (limit : Int) (form : UploadForm) (files : List UploadFile) :
    Service Outcome :=
  match bulkProblem form files with
  | some msg => return refuse 400 msg
  | none => getQueueDepth >>= afterBulkDepth limit form files

/-- How a command ends: an enqueue script may report an error although it has taken effect. -/
inductive Fate
  | plain (e : Env)
  | late (msg : String)

def Store.serve (σ : Store) : (q : Query) → Fate → Option (Answer q × Store)
  | .llen, .plain .ok => some (.ok σ.jobQueue.length, σ)
  | .llen, .plain (.fail m) => some (.error m, σ)
  | .cmd (.remote (.put _)), .plain (.fail _) => none
  | .cmd (.remote (.delete _)), .plain (.fail _) => none
  | .cmd c, .plain e => σ.exec c e
  | .cmd (.remote (.enqueueWithLimitScript job limit count)), .late m =>
    some (.error m, (σ.apply (.enqueueWithLimitScript job limit count)).2)
  | _, _ => none

inductive Client
  | upload (form : UploadForm) (f : UploadFile)
  | bulkUpload (form : UploadForm) (files : List UploadFile)
  | worker (w : WorkerId)

def Client.prog (limit : Int) : Client → Service Outcome
  | .upload form f => uploadHandler limit form f
  | .bulkUpload form files => bulkUploadHandler limit form files
  | .worker w => do
    let r ← ask (popJobReliable w)
    return .popped r

def Client.uploads : Client → List Upload
  | .upload form f => [f.upload form]
  | .bulkUpload form files => files.map (·.bulkUpload form)
  | .worker _ => []

/-! The positions of the handlers. -/

inductive Task
  | single
  | bulk (form : UploadForm) (rest : List UploadFile) (b : Batch)

inductive Desk
  | probing (form : UploadForm) (f : UploadFile)
  | probingBulk (form : UploadForm) (files : List UploadFile)
  | storing (t : Task) (u : Upload)
  | publishing (t : Task) (u : Upload)
  | undoing (t : Task) (u : Upload) (e : QueueError)
  | popping (w : WorkerId)
  | ended (o : Outcome)

def Desk.arrive (form : UploadForm) : List UploadFile → Batch → Desk
  | [], b => .ended b.outcome
  | f :: fs, b =>
    match f.bulkProblem with
    | some msg => arrive form fs (b.fail f.filename msg)
    | none => .storing (.bulk form fs b) (f.bulkUpload form)

def Task.settle : Task → Upload → Except IntakeError Unit → Desk
  | .single, u, r => .ended (u.answer r)
  | .bulk form rest b, u, r => .arrive form rest (b.note u r)

def Task.resume (limit : Int) : Task → Upload → Except IntakeError Unit → Service Outcome
  | .single, u, r => .ret (u.answer r)
  | .bulk form rest b, u, r => bulkLoop limit form rest (b.note u r)

def Client.start : Client → Desk
  | .upload form f =>
    match f.problem with
    | some (code, msg) => .ended (refuse code msg)
    | none => .probing form f
  | .bulkUpload form files =>
    match bulkProblem form files with
    | some msg => .ended (refuse 400 msg)
    | none => .probingBulk form files
  | .worker w => .popping w

namespace Desk

def prog (limit : Int) : Desk → Service Outcome
  | .probing form f => getQueueDepth >>= afterDepth limit form f
  | .probingBulk form files => getQueueDepth >>= afterBulkDepth limit form files
  | .storing t u => ask (storeUpload limit u) >>= t.resume limit u
  | .publishing t u => ask (enqueueStored limit u) >>= t.resume limit u
  | .undoing t u e => ask (remote (.delete u.storageKey)) >>= fun _ =>
      t.resume limit u (.error (.queue e))
  | .popping w => ask (popJobReliable w) >>= fun r => .ret (.popped r)
  | .ended o => .ret o

def depthKnown (limit : Int) (form : UploadForm) (f : UploadFile) : Except String Nat → Desk
  | .error _ => .ended (refuse 429 "Queue backpressure check unavailable, please try again later")
  | .ok depth =>
    if limit < depth then .ended (refuse 429 "Queue is full, please try again later")
    else
      match form.webhookProblem with
      | some msg => .ended (refuse 400 msg)
      | none => .storing .single (f.upload form)

def bulkDepthKnown (limit : Int) (form : UploadForm) (files : List UploadFile) :
    Except String Nat → Desk
  | .error _ => .ended (refuse 429 "Queue backpressure check unavailable, please try again later")
  | .ok depth =>
    if limit < depth + files.length then
      .ended (refuse 429 "Queue is too full for bulk upload, please try again later")
    else .arrive form files {}

def next (limit : Int) : Desk → (q : Query) → Answer q → Desk
  | .probing form f, .llen, r => depthKnown limit form f r
  | .probingBulk form files, .llen, r => bulkDepthKnown limit form files r
  | .storing t u, .cmd (.remote (.put _)), .ok _ => .publishing t u
  | .storing t u, .cmd (.remote (.put _)), .error e => t.settle u (.error (.storage e))
  | .publishing t u, .cmd (.remote (.enqueueWithLimitScript _ _ _)), .ok true => t.settle u (.ok ())
  | .publishing t u, .cmd (.remote (.enqueueWithLimitScript _ _ _)), .ok false =>
    .undoing t u .queueFull
  | .publishing t u, .cmd (.remote (.enqueueWithLimitScript _ _ _)), .error e =>
    .undoing t u (.text ("failed to atomically enqueue job: " ++ e))
  | .undoing t u e, .cmd (.remote (.delete _)), _ => t.settle u (.error (.queue e))
  | .popping _, .cmd (.remote (.blmove _)), .ok (some j) => .ended (.popped (.ok j))
  | .popping _, .cmd (.remote (.blmove _)), .ok none => .ended (.popped (.error .noJob))
  | .popping _, .cmd (.remote (.blmove _)), .error e => .ended (.popped (.error (.text e)))
  | m, _, _ => m

theorem prog_arrive (form : UploadForm) (fs : List UploadFile) (b : Batch) :
    prog limit (arrive form fs b) = bulkLoop limit form fs b := by
  induction fs generalizing b with
  | nil => rfl
  | cons f fs ih =>
    simp only [arrive, bulkLoop]
    cases f.bulkProblem with
    | some msg => exact ih _
    | none => rfl

theorem prog_settle (t : Task) (u : Upload) (r : Except IntakeError Unit) :
    prog limit (t.settle u r) = t.resume limit u r := by
  cases t with
  | single => rfl
  | bulk form rest b => exact prog_arrive form rest _

theorem prog_depthKnown (form : UploadForm) (f : UploadFile) (r : Except String Nat) :
    prog limit (depthKnown limit form f r) = afterDepth limit form f r := by
  cases r with
  | error e => rfl
  | ok depth =>
    simp only [depthKnown, afterDepth]
    split
    · rfl
    · cases form.webhookProblem <;> rfl

theorem prog_bulkDepthKnown (form : UploadForm) (files : List UploadFile)
    (r : Except String Nat) :
    prog limit (bulkDepthKnown limit form files r) = afterBulkDepth limit form files r := by
  cases r with
  | error e => rfl
  | ok depth =>
    simp only [bulkDepthKnown, afterBulkDepth]
    split
    · rfl
    · exact prog_arrive form files {}

theorem prog_start (c : Client) : prog limit c.start = c.prog limit := by
  cases c with
  | upload form f =>
    simp only [Client.start, Client.prog, uploadHandler]
    cases f.problem <;> rfl
  | bulkUpload form files =>
    simp only [Client.start, Client.prog, bulkUploadHandler]
    cases bulkProblem form files <;> rfl
  | worker w => rfl

theorem next_law {k : Answer q → Service Outcome} (h : prog limit m = .call q k) (r : Answer q) :
    k r = prog limit (next limit m q r) := by
  cases m with
  | ended o => cases h
  | probing form f =>
    cases h
    exact (prog_depthKnown form f r).symm
  | probingBulk form files =>
    cases h
    exact (prog_bulkDepthKnown form files r).symm
  | storing t u =>
    cases h
    cases r with
    | error e => exact (prog_settle t u _).symm
    | ok _ => rfl
  | publishing t u =>
    cases h
    rcases r with e | _ | _
    · rfl
    · rfl
    · exact (prog_settle t u _).symm
  | undoing t u e =>
    cases h
    exact (prog_settle t u _).symm
  | popping w =>
    cases h
    rcases r with e | _ | j <;> rfl

end Desk

def deskScript (limit : Int) : Script Query Answer Outcome Desk :=
  ⟨Desk.prog limit, Desk.next limit, Desk.next_law⟩

end Morf.Queue
