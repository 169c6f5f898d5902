import Morf.Storage.Inflight
import Morf.Utils.Retry

/-! `Put` of `storage/s3.go` against an object store that fails for a while.  The HTTP client reads
the body of a request and closes it when the attempt is over; what it gets for an answer is
arbitrary. -/

namespace Morf.Storage

open Morf.Lib Morf.Utils

def s3MaxRetries : Nat := 3

/-- Whether a body is an `io.Closer`, and whether it is of use after `Close`. -/
inductive Closer
  | absent
  | harmless
  | final
  deriving DecidableEq

/-- An `io.Reader` that is an `io.Seeker`. -/
structure SeekBody where
  content : Bytes
  offset : Nat := 0
  closer : Closer
  closed : Bool := false

namespace SeekBody

def rest (b : SeekBody) : Bytes := b.content.drop b.offset

def seekCurrent (b : SeekBody) : Except String Nat :=
  if b.closed then .error "file already closed" else .ok b.offset

def seekStart (b : SeekBody) (offset : Nat) : Except String SeekBody :=
  if b.closed then .error "file already closed" else .ok { b with offset := offset }

def read (b : SeekBody) (n : Nat) : SeekBody := { b with offset := b.offset + min n b.rest.length }

def close (b : SeekBody) : SeekBody :=
  match b.closer with
  | .absent | .harmless => b
  | .final => { b with closed := true }

end SeekBody

/-- How an attempt ends: the connection breaks, or the store replies, after it has taken some of
the body. -/
inductive Answer
  | fault (taken : Nat) (cause : String)
  | reply (taken : Nat) (code : Nat)

def retryableStatus (code : Nat) : Bool := code == 429 || decide (500 ≤ code)

def Answer.transient : Answer → Bool
  | .fault _ _ => true
  | .reply _ code => retryableStatus code

structure Remote where
  answers : List Answer
  objects : Key → Option Bytes

/-- The bytes of a request of length `size`.  A length of zero means unknown to the client if there
is a body, and a body that has another length than announced is not sent to its end. -/
def transmitted (size : Nat) (rest : Bytes) : Option Bytes :=
  if size = 0 ∨ rest.length = size then some rest else none

def clientDo (key : Key) (size : Nat) (body : SeekBody) (remote : Remote) :
    Except String Nat × SeekBody × Remote :=
  match remote.answers with
  | [] => (.error "no answer", body.close, remote)
  | .fault taken cause :: answers =>
    (.error cause, (body.read taken).close, { remote with answers := answers })
  | .reply taken code :: answers =>
    if code / 100 = 2 then
      match transmitted size body.rest with
      | some bytes =>
        (.ok code, (body.read bytes.length).close,
          { answers := answers, objects := Function.update remote.objects key (some bytes) })
      | none => (.error "http: ContentLength with Body length", (body.read size).close,
          { remote with answers := answers })
    else (.ok code, (body.read taken).close, { remote with answers := answers })

def emptyKey (key : Key) : Bool := key.toList.all Text.isSpace

def attempt (key : Key) (size : Nat) (build : SeekBody → Except String SeekBody)
    (s : SeekBody × Remote) : Except Failure Nat × SeekBody × Remote :=
  match build s.1 with
  | .error cause => (.error { wrapped := some false, text := cause }, s)
  | .ok body =>
    -- `objectURL` rejects the key once the body is rewound
    if emptyKey key then (.error { wrapped := some false, text := "storage: empty key" }, body, s.2)
    else
      match clientDo key size body s.2 with
      | (.error cause, s) => (.error { netError := true, urlError := true, text := cause }, s)
      | (.ok code, s) =>
        if retryableStatus code then
          (.error { wrapped := some true, text := "status " ++ toString code }, s)
        else (.ok code, s)

/-- What becomes of the context: the error with which it ends the wait for the semaphore, and those
it has when an attempt is due. -/
structure Ctx where
  acquire : Option String := none
  attempt : Nat → Option Failure := fun _ => none

structure Ctx.Alive (ctx : Ctx) : Prop where
  acquire : ctx.acquire = none
  attempt : ∀ k, ctx.attempt k = none

def upload (ctx : Ctx) (key : Key) (size : Nat) (build : SeekBody → Except String SeekBody)
    (body : SeekBody) (remote : Remote) : Option PutError × Remote :=
  match ctx.acquire with
  | some cause => (some (.budget cause), remote)
  | none =>
    match retryWithContext ctx.attempt (attempt key size build) s3MaxRetries (body, remote) with
    | (.error err, _, remote) => (some (.send err.text), remote)
    | (.ok code, _, remote) => (if code / 100 = 2 then none else some (.status code), remote)

def rewind (start : Nat) (body : SeekBody) : Except String SeekBody :=
  (body.seekStart start).mapError ("storage: rewinding upload: " ++ ·)

def putStreaming (ctx : Ctx) (key : Key) (body : SeekBody) (size : Nat) (remote : Remote) :
    Option PutError × Remote :=
  match body.seekCurrent with
  | .error cause => (some (.seeking cause), remote)
  | .ok start => upload ctx key size (rewind start) body remote

def readCapped (r : Stream) : Except String Bytes :=
  let body := r.chunks.flatten.take (maxS3UploadBytes + 1)
  match r.fault with
  | some cause => if body.length ≤ maxS3UploadBytes then .error cause else .ok body
  | none => .ok body

def putBuffered (ctx : Ctx) (key : Key) (r : Stream) (size : Int) (remote : Remote) :
    Option PutError × Remote :=
  match readCapped r with
  | .error cause => (some (.reading cause), remote)
  | .ok body =>
    if maxS3UploadBytes < body.length then (some .overLimit, remote)
    else if 0 ≤ size ∧ (body.length : Int) ≠ size then
      (some (.mismatch body.length size), remote)
    else
      let fresh : SeekBody := { content := body, closer := .absent }
      upload ctx key body.length (fun _ => .ok fresh) fresh remote

inductive Source
  | seeker (body : SeekBody)
  | plain (r : Stream)

def Source.stream : Source → Stream
  | .seeker body =>
    if body.closed then { chunks := [], fault := some "file already closed" }
    else { chunks := [body.rest] }
  | .plain r => r

def put (ctx : Ctx) (key : Key) (r : Source) (size : Int) (remote : Remote) :
    Option PutError × Remote :=
  if (maxS3UploadBytes : Int) < size then (some (.tooLarge size), remote)
  else
    match r with
    | .seeker body =>
      if 0 ≤ size then putStreaming ctx key body size.toNat remote
      else putBuffered ctx key r.stream size remote
    | .plain r => putBuffered ctx key r size remote

section Bodies

variable (b : SeekBody) (n : Nat)

@[simp]
theorem SeekBody.content_close : b.close.content = b.content := by
  unfold close
  split <;> rfl

@[simp]
theorem SeekBody.closer_close : b.close.closer = b.closer := by
  unfold close
  split <;> rfl

@[simp]
theorem SeekBody.content_read : (b.read n).content = b.content := rfl

@[simp]
theorem SeekBody.closer_read : (b.read n).closer = b.closer := rfl

@[simp]
theorem SeekBody.closed_read : (b.read n).closed = b.closed := rfl

theorem SeekBody.closed_close (h : b.closer ≠ .final) : b.close.closed = b.closed := by
  unfold close
  split
  · rfl
  · rfl
  · exact absurd ‹_› h

theorem SeekBody.closed_of_final (h : b.closer = .final) : b.close.closed = true := by
  rw [close, h]

end Bodies

section Attempts

variable {answers : List Answer}

theorem transmitted_eq (h : transmitted size content = some bytes) :
    bytes = content ∧ (size = 0 ∨ content.length = size) := by
  unfold transmitted at h
  split at h <;> cases h
  exact ⟨rfl, ‹_›⟩

theorem transmitted_self (h : content.length = size) : transmitted size content = some content :=
  if_pos (.inr h)

theorem div_ne_of_retryable (h : retryableStatus code = true) : ¬ code / 100 = 2 := by
  simp only [retryableStatus, Bool.or_eq_true, beq_iff_eq, decide_eq_true_eq] at h
  omega

theorem not_retryable_of_div (h : code / 100 = 2) : retryableStatus code = false :=
  Bool.eq_false_iff.mpr fun hr => div_ne_of_retryable hr h

theorem attempt_transient (size : Nat) (hb : build s.1 = .ok body) (hkey : emptyKey key = false)
    (ha : s.2.answers = a :: answers) (ht : a.transient = true) :
    ∃ err taken, attempt key size build s =
        (.error err, (body.read taken).close, { s.2 with answers := answers }) ∧
      isRetryable err = true := by
  cases a with
  | fault taken cause =>
    refine ⟨{ netError := true, urlError := true, text := cause }, taken, ?_, rfl⟩
    simp only [attempt, hb, hkey, clientDo, ha, Bool.false_eq_true, if_false]
  | reply taken code =>
    refine ⟨{ wrapped := some true, text := "status " ++ toString code }, taken, ?_, rfl⟩
    have hcode : retryableStatus code = true := ht
    simp only [attempt, hb, hkey, clientDo, ha, Bool.false_eq_true, if_false,
      div_ne_of_retryable hcode, hcode, if_true]

theorem attempt_success (hb : build s.1 = .ok body) (hkey : emptyKey key = false)
    (ha : s.2.answers = .reply taken code :: answers) (hcode : code / 100 = 2)
    (hbytes : transmitted size body.rest = some bytes) :
    attempt key size build s = (.ok code, (body.read bytes.length).close,
      { answers := answers, objects := Function.update s.2.objects key (some bytes) }) := by
  simp only [attempt, hb, hkey, clientDo, ha, Bool.false_eq_true, if_false, hcode, if_true, hbytes,
    not_retryable_of_div hcode]

theorem clientDo_body (key : Key) (size : Nat) (body : SeekBody) (remote : Remote) :
    (clientDo key size body remote).2.1.content = body.content := by
  unfold clientDo
  split
  · simp
  · simp
  · split
    · split <;> simp
    · simp

theorem clientDo_stores (hcode : code / 100 = 2)
    (h : (clientDo key size body remote).1 = .ok code) :
    ∃ bytes, transmitted size body.rest = some bytes ∧
      (clientDo key size body remote).2.2.objects key = some bytes := by
  unfold clientDo at h ⊢
  split at h
  · cases h
  · cases h
  · split at h
    · split at h
      · refine ⟨_, ‹_›, ?_⟩
        simp [*]
      · cases h
    · cases h
      exact absurd hcode ‹_›

theorem attempt_ok (h : attempt key size build s = (.ok code, t)) :
    ∃ body, build s.1 = .ok body ∧ clientDo key size body s.2 = (.ok code, t) := by
  unfold attempt at h
  split at h
  · cases h
  · refine ⟨_, ‹_›, ?_⟩
    split at h
    · cases h
    · split at h
      · cases h
      · split at h
        · cases h
        · cases h
          assumption

theorem attempt_content (hbuild : ∀ b body, build b = .ok body → body.content = b.content) :
    (attempt key size build s).2.1.content = s.1.content := by
  unfold attempt
  split
  · rfl
  · rename_i body hb
    split
    · exact hbuild _ _ hb
    · have hbody := (clientDo_body key size body s.2).trans (hbuild _ _ hb)
      split
      · rename_i hdo
        rwa [hdo] at hbody
      · rename_i hdo
        rw [hdo] at hbody
        split <;> exact hbody

theorem attempt_stores (hcode : code / 100 = 2) (h : attempt key size build s = (.ok code, t)) :
    ∃ sent bytes, build s.1 = .ok sent ∧ transmitted size sent.rest = some bytes ∧
      t.2.objects key = some bytes := by
  obtain ⟨sent, hsent, hdo⟩ := attempt_ok h
  obtain ⟨bytes, hbytes, hobject⟩ : ∃ bytes, transmitted size sent.rest = some bytes ∧
      (clientDo key size sent s.2).2.2.objects key = some bytes :=
    clientDo_stores hcode (by rw [hdo])
  rw [hdo] at hobject
  exact ⟨sent, bytes, hsent, hbytes, hobject⟩

theorem upload_stores {I : SeekBody → Prop} (hI : I body)
    (hkeep : ∀ s, I s.1 → I (attempt key size build s).2.1)
    (hbuild : ∀ b sent, I b → build b = .ok sent → sent.rest = content)
    (h : (upload ctx key size build body remote).1 = none) :
    ∃ bytes, transmitted size content = some bytes ∧
      (upload ctx key size build body remote).2.objects key = some bytes := by
  have hfail : ∀ s err t, I s.1 → attempt key size build s = (.error err, t) → I t.1 := by
    intro s err t hs hfn
    have ht := hkeep s hs
    rwa [hfn] at ht
  have hok : ∀ s code t, I s.1 → attempt key size build s = (.ok code, t) → code / 100 = 2 →
      ∃ bytes, transmitted size content = some bytes ∧ t.2.objects key = some bytes := by
    intro s code t hs hfn hcode
    obtain ⟨sent, bytes, hsent, hbytes, hobject⟩ := attempt_stores hcode hfn
    rw [hbuild _ _ hs hsent] at hbytes
    exact ⟨bytes, hbytes, hobject⟩
  unfold upload at h ⊢
  split at h
  · cases h
  · split at h
    · cases h
    · rename_i code b after hrun
      have hcode : code / 100 = 2 := by
        by_contra hne
        simp only [if_neg hne] at h
        cases h
      exact retryFrom_safe hfail hok hI hrun hcode

structure Due (J : Nat → SeekBody → Prop) (taken code : Nat) (answers : List Answer) (n : Nat)
    (s : SeekBody × Remote) : Prop where
  body : J n s.1
  answers : ∃ failures : List Answer, failures.length = n ∧
    (∀ a ∈ failures, a.transient = true) ∧ s.2.answers = failures ++ .reply taken code :: answers

theorem Due.fails (hs : Due J taken code answers (n + 1) s) (hkey : emptyKey key = false)
    (hagain : ∀ b, J (n + 1) b → ∃ sent, build b = .ok sent ∧ ∀ k, J n (sent.read k).close) :
    ∃ err t, attempt key size build s = (.error err, t) ∧ isRetryable err = true ∧
      Due J taken code answers n t := by
  obtain ⟨failures, hn, hfail, ha⟩ := hs.answers
  cases failures with
  | nil => cases hn
  | cons a failures =>
    obtain ⟨sent, hsent, hnext⟩ := hagain s.1 hs.body
    obtain ⟨err, k, hfn, hr⟩ :=
      attempt_transient size hsent hkey ha (hfail a List.mem_cons_self)
    exact ⟨err, _, hfn, hr, hnext k, failures, Nat.succ.inj hn,
      fun b hb => hfail b (List.mem_cons_of_mem a hb), rfl⟩

theorem Due.succeeds (hs : Due J taken code answers 0 s) (hkey : emptyKey key = false)
    (hcode : code / 100 = 2)
    (hlast : ∀ b, J 0 b → ∃ sent, build b = .ok sent ∧ transmitted size sent.rest = some bytes) :
    ∃ a t, attempt key size build s = (.ok a, t) ∧ a / 100 = 2 ∧ t.2.objects key = some bytes := by
  obtain ⟨failures, hn, -, ha⟩ := hs.answers
  obtain rfl := List.length_eq_zero_iff.mp hn
  obtain ⟨sent, hsent, hbytes⟩ := hlast s.1 hs.body
  exact ⟨code, _, attempt_success hsent hkey ha hcode hbytes, hcode, Function.update_self ..⟩

theorem upload_survives {J : Nat → SeekBody → Prop} (hctx : ctx.Alive) (hkey : emptyKey key = false)
    (hagain : ∀ n b, J (n + 1) b → ∃ sent, build b = .ok sent ∧ ∀ k, J n (sent.read k).close)
    (hlast : ∀ b, J 0 b → ∃ sent, build b = .ok sent ∧ transmitted size sent.rest = some bytes)
    (hJ : J failures.length body) (hfail : ∀ a ∈ failures, a.transient = true)
    (hlen : failures.length ≤ s3MaxRetries) (hcode : code / 100 = 2)
    (ha : remote.answers = failures ++ .reply taken code :: answers) :
    (upload ctx key size build body remote).1 = none ∧
      (upload ctx key size build body remote).2.objects key = some bytes := by
  -- the failures that are still to come measure the progress of the loop
  have hdue : Due J taken code answers failures.length (body, remote) :=
    ⟨hJ, failures, rfl, hfail, ha⟩
  obtain ⟨code', t, hrun, hcode', hstored⟩ : ∃ code' t,
      retryFrom ctx.attempt (attempt key size build) s3MaxRetries 0 (body, remote) =
          (.ok code', t) ∧
        code' / 100 = 2 ∧ t.2.objects key = some bytes :=
    retryFrom_succeeds hctx.attempt (fun n _ hs => hs.fails hkey (hagain n))
      (fun _ hs => hs.succeeds hkey hcode hlast) hlen hdue
  simp only [upload, hctx.acquire, retryWithContext, hrun, if_pos hcode', true_and]
  exact hstored

theorem rewind_ok (start : Nat) (h : body.closed = false) :
    rewind start body = .ok { body with offset := start } := by
  rw [rewind, SeekBody.seekStart, h]
  rfl

theorem rewind_inv (h : rewind start body = .ok sent) : sent = { body with offset := start } := by
  unfold rewind SeekBody.seekStart at h
  split at h
  · cases h
  · cases h
    rfl

theorem putStreaming_open (h : body.closed = false) :
    putStreaming ctx key body size remote =
      upload ctx key size (rewind body.offset) body remote := by
  rw [putStreaming, SeekBody.seekCurrent, h]
  rfl

theorem putStreaming_stores (h : (putStreaming ctx key body size remote).1 = none)
    (hopen : body.closed = false) : ∃ bytes, transmitted size body.rest = some bytes ∧
      (putStreaming ctx key body size remote).2.objects key = some bytes := by
  rw [putStreaming_open hopen] at h ⊢
  refine upload_stores (I := fun b => b.content = body.content) rfl ?_ ?_ h
  · intro s hs
    refine (attempt_content fun b sent hsent => ?_).trans hs
    rw [rewind_inv hsent]
  · intro b sent hb hsent
    rw [rewind_inv hsent, SeekBody.rest, hb, SeekBody.rest]

theorem putStreaming_survives (hctx : ctx.Alive) (hkey : emptyKey key = false)
    (hopen : body.closed = false) (hbody : failures = [] ∨ body.closer ≠ .final)
    (hsize : body.rest.length = size) (hfail : ∀ a ∈ failures, a.transient = true)
    (hlen : failures.length ≤ s3MaxRetries) (hcode : code / 100 = 2)
    (ha : remote.answers = failures ++ .reply taken code :: answers) :
    (putStreaming ctx key body size remote).1 = none ∧
      (putStreaming ctx key body size remote).2.objects key = some body.rest := by
  rw [putStreaming_open hopen]
  refine upload_survives (J := fun n b => b.content = body.content ∧ b.closed = false ∧
    (n = 0 ∨ b.closer ≠ .final)) hctx hkey ?_ ?_ ?_ hfail hlen hcode ha
  · rintro n b ⟨hcontent, hopen, hcloser⟩
    have hne : b.closer ≠ .final := hcloser.resolve_left (Nat.succ_ne_zero n)
    refine ⟨_, rewind_ok _ hopen, fun k => ⟨?_, ?_, .inr ?_⟩⟩
    · simpa using hcontent
    · refine (SeekBody.closed_close _ ?_).trans hopen
      exact hne
    · simpa using hne
  · rintro b ⟨hcontent, hopen, -⟩
    refine ⟨_, rewind_ok _ hopen, ?_⟩
    rw [SeekBody.rest, hcontent]
    exact transmitted_self hsize
  · exact ⟨rfl, hopen, hbody.imp_left fun h => by rw [h]; rfl⟩

theorem attempt_closed (h : s.1.closed = true) :
    attempt key size (rewind start) s =
      (.error
        { wrapped := some false, text := "storage: rewinding upload: file already closed" }, s) := by
  rw [attempt, rewind, SeekBody.seekStart, h]
  rfl

theorem putStreaming_closed (hctx : ctx.Alive) (hkey : emptyKey key = false)
    (hopen : body.closed = false) (hfinal : body.closer = .final) (ht : a.transient = true)
    (ha : remote.answers = a :: answers) : (putStreaming ctx key body size remote).1 =
      some (.send "storage: rewinding upload: file already closed") := by
  obtain ⟨err, k, hfn, hr⟩ := attempt_transient size (s := (body, remote))
    (rewind_ok body.offset hopen) hkey ha ht
  have hrun : retryWithContext ctx.attempt (attempt key size (rewind body.offset)) s3MaxRetries
      (body, remote) = _ :=
    (retryFrom_again (hctx.attempt 0) hfn hr).trans
      (retryFrom_stop (hctx.attempt 1) (attempt_closed (SeekBody.closed_of_final _ hfinal)) rfl)
  rw [putStreaming_open hopen, upload, hctx.acquire]
  simp only [hrun]

/-- `Put` outlives transient failures, within its budget, just if the body can be used after `Close`
or does not have to be, and has the size it is said to have. -/
theorem put_survives_iff (ctx : Ctx) (hctx : ctx.Alive) (key : Key) (hkey : emptyKey key = false)
    (body : SeekBody) (hopen : body.closed = false) (size : Nat) (hmax : size ≤ maxS3UploadBytes)
    (failures : List Answer) (hfail : ∀ a ∈ failures, a.transient = true)
    (hlen : failures.length ≤ s3MaxRetries) (taken code : Nat) (hcode : code / 100 = 2)
    (more : List Answer) (objects : Key → Option Bytes) :
    ((put ctx key (.seeker body) size ⟨failures ++ .reply taken code :: more, objects⟩).1 = none ∧
      (put ctx key (.seeker body) size ⟨failures ++ .reply taken code :: more, objects⟩).2.objects
        key = some (body.rest.take size)) ↔
    (failures = [] ∨ body.closer ≠ .final) ∧ body.rest.length = size := by
  have hput : ∀ remote, put ctx key (.seeker body) size remote =
      putStreaming ctx key body size remote := by
    intro remote
    rw [put, if_neg (by omega)]
    simp only [Int.natCast_nonneg, if_true, Int.toNat_natCast]
  rw [hput]
  constructor
  · rintro ⟨hnil, hstored⟩
    refine ⟨?_, ?_⟩
    · by_contra hnot
      rw [not_or, not_not] at hnot
      obtain ⟨a, rest, rfl⟩ := List.exists_cons_of_ne_nil hnot.1
      rw [putStreaming_closed hctx hkey hopen hnot.2 (hfail a List.mem_cons_self) rfl] at hnil
      cases hnil
    · obtain ⟨bytes, hbytes, hobject⟩ := putStreaming_stores hnil hopen
      obtain ⟨rfl, hzero | heq⟩ := transmitted_eq hbytes
      · -- of a length of zero the client makes the length of the body
        rw [hobject, hzero, List.take_zero, Option.some.injEq] at hstored
        rw [hstored, hzero]
        rfl
      · exact heq
  · rintro ⟨hbody, hsize⟩
    rw [List.take_of_length_le (Nat.le_of_eq hsize)]
    exact putStreaming_survives hctx hkey hopen hbody hsize hfail hlen hcode rfl

/-- A buffer in memory is sent again from where it stood. -/
theorem buffer_sent_again :
    (put {} "apk" (.seeker { content := [1, 2, 3], offset := 1, closer := .absent }) (2 : Nat)
      ⟨[.fault 1 "connection reset", .reply 0 503] ++ .reply 2 200 :: [], fun _ => none⟩).2.objects
        "apk" = some [2, 3] :=
  ((put_survives_iff {} ⟨rfl, fun _ => rfl⟩ "apk" (by decide +kernel)
    { content := [1, 2, 3], offset := 1, closer := .absent } rfl 2 (by decide)
    [.fault 1 "connection reset", .reply 0 503] (by decide) (by decide) 2 200 rfl []
    fun _ => none).mpr ⟨.inr (by decide), rfl⟩).2

/-- A file is closed by the first attempt, and cannot be rewound for the second. -/
theorem file_not_sent_again :
    (put {} "apk" (.seeker { content := [1, 2, 3], closer := .final }) 3
      ⟨[.reply 3 503, .reply 3 200], fun _ => none⟩).1 =
        some (.send "storage: rewinding upload: file already closed") := by
  rfl

end Attempts

end Morf.Storage
